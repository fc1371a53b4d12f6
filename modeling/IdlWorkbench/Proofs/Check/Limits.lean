import IdlWorkbench.Proofs.Check.Range
import IdlWorkbench.Proofs.Check.Tables

/-!
# Constants stay in 128 bits

The least integer of 128 bits is the one whose negation is too large, and no constant is ever that integer. Literals
and numbered constants are not negative, and numbers become integers only within a bound. The way around that bound
is a constant that has its type already: it is assigned with no look at its value, and then takes on the kind that
its type comes down to. So no number may come with a type that comes down to integers. One that is computed here
does not, as the bound was held against it; one that is imported could, if the packages do not agree on what a type
is. -/

namespace IdlWorkbench

open ConstValue

namespace Check

/-! ## What is known of constants -/

/-- A number comes with a type, and not with one that comes down to integers. -/
def Env.KeepsFloat (env : Env) (c : ConstDef) : Prop :=
  ∀ x, c.value = .float x → c.type.isInvalid = false ∧ ∀ kind, env.Amounts c.type kind → kind.isInteger = false

structure Env.Bounds (env : Env) (c : ConstDef) : Prop where
  limits : c.value.InLimits
  keeps : env.KeepsFloat c

def Env.Limits (env : Env) (tv : TypeAndValue) : Prop :=
  ∀ value, tv.const? = some value → env.Bounds ⟨tv.type, value⟩

section
variable {env : Env} {t target : Ty} {kind : BasicKind} {value value' : ConstValue} {c : ConstDef}

theorem limits_constant : env.Limits c.toTypeAndValue ↔ env.Bounds c := by
  refine ⟨fun h => h c.value rfl, fun h => ?_⟩
  rintro _ ⟨⟩
  exact h

theorem bounds_untyped (value : ConstValue) (h : value.InLimits) : env.Bounds ⟨.basic value.untypedKind, value⟩ := by
  refine ⟨h, ?_⟩
  rintro x rfl
  refine ⟨rfl, ?_⟩
  rintro _ ⟨⟩
  rfl

theorem bounds_int {n : Int} (h : (int n).InLimits) : env.Bounds ⟨t, .int n⟩ := by
  refine ⟨h, ?_⟩
  rintro _ ⟨⟩

theorem bounds_float {x : Binary64} (h : env.KeepsFloat ⟨t, .float x⟩) : env.Bounds ⟨t, .float x⟩ := by
  refine ⟨?_, h⟩
  rintro _ ⟨⟩

theorem inLimits_literalValue {token : Token} (h : literalValue? token = some value) : value.InLimits := by
  unfold literalValue? at h
  split at h
  · obtain ⟨n, hn, rfl⟩ := Option.map_eq_some_iff.mp h
    exact inLimits_of_literal hn
  · obtain ⟨x, -, rfl⟩ := Option.map_eq_some_iff.mp h
    exact nofun
  · obtain ⟨s, -, rfl⟩ := Option.map_eq_some_iff.mp h
    exact nofun
  · obtain ⟨s, -, rfl⟩ := Option.map_eq_some_iff.mp h
    exact nofun
  · cases h

/-- A sign does not lead out of the limits, and leaves a number a number. -/
theorem Env.Bounds.signed {op : Token} (h : env.Bounds ⟨t, value⟩) (hsigned : signed? op value = some value') :
    env.Bounds ⟨t, value'⟩ := by
  cases value with
  | bool b => cases hsigned
  | string s => cases hsigned
  | int n =>
    rw [signed?] at hsigned
    split at hsigned
    · cases hsigned
      exact bounds_int h.limits.neg
    · split at hsigned
      · cases hsigned
        exact h
      · cases hsigned
  | float x =>
    have hkeeps (y : Binary64) : env.Bounds ⟨t, .float y⟩ := bounds_float fun _ _ => h.keeps x rfl
    rw [signed?] at hsigned
    split at hsigned
    · cases hsigned
      exact hkeeps _
    · split at hsigned
      · cases hsigned
        exact hkeeps _
      · cases hsigned

/-- A value that took on the kind of its type is no number of an integer type. -/
theorem bounds_convert (htarget : env.Amounts target kind) (h : (value.convert kind).InLimits) :
    env.Bounds ⟨target, value.convert kind⟩ := by
  refine ⟨h, fun x hx => ⟨htarget.not_isInvalid, fun kind' hkind' => ?_⟩⟩
  obtain rfl := htarget.unique hkind'
  have hfloat : kind.isFloat = true ∨ kind.isInteger = false := by
    cases value with
    | bool b => cases hx
    | string s => cases hx
    | int n =>
      dsimp only [convert] at hx
      split at hx
      · exact Or.inl ‹_›
      · cases hx
    | float y =>
      dsimp only [convert] at hx
      split at hx
      · cases hx
      · exact Or.inr (Bool.eq_false_iff.mpr ‹_›)
  rcases hfloat with hfloat | hint
  · cases kind <;> first | rfl | cases hfloat
  · exact hint

end

/-! ## States -/

/-- Of all that was found out so far something is known: basic types are at the end of chains, and constants are in
the limits. -/
structure Env.Bounded (env : Env) (s : State) : Prop where
  types : ∀ name kind, s.types.find? name = some (.basic kind) → env.Underlies name (.basic kind)
  consts : ∀ e ∈ s.consts, env.Bounds e.2
  recorded : s.Recorded env.Limits

section
variable {env : Env} {s t : State}

/-- Only what was found out and recorded counts. -/
theorem Env.Bounded.congr (h : env.Bounded s) (htypes : t.types = s.types) (hconsts : t.consts = s.consts)
    (htable : t.table = s.table)
    (htables : t.tables = s.tables) : env.Bounded t :=
  ⟨htypes ▸ h.types, hconsts ▸ h.consts, htable ▸ h.recorded.table, htables ▸ h.recorded.tables⟩

theorem Env.Bounded.begin (h : env.Bounded s) (name : String) : env.Bounded (s.begin name) :=
  ⟨h.types, h.consts, List.forall_mem_nil _, h.recorded.tables⟩

/-- A declaration is finished: what it recorded goes to the table of its file. -/
theorem Env.Bounded.finish {u : State} (h : env.Bounded s) (ht : env.Bounded t) (file : Nat)
    (htypes : ∀ name kind, u.types.find? name = some (.basic kind) → env.Underlies name (.basic kind))
    (hconsts : ∀ e ∈ u.consts, env.Bounds e.2) (htable : u.table = s.table)
    (htables : u.tables = t.tables.modify file (·.insertAll t.table)) : env.Bounded u := by
  refine ⟨htypes, hconsts, htable ▸ h.recorded.table, ?_⟩
  rw [htables]
  exact forall_modify ht.recorded.tables ht.recorded.table file

/-- Types are no values. -/
theorem Env.Bounded.enters {site : Site} {subs : List TypeExpr} (h : env.Bounded s) (ht : Enters env site subs s t) :
    env.Bounded t := by
  have htypes : t.types = s.types := congrArg Core.types ht.core
  have hconsts : t.consts = s.consts := congrArg Core.consts ht.core
  refine ⟨htypes ▸ h.types, hconsts ▸ h.consts, ?_, ht.tables ▸ h.recorded.tables⟩
  have hentries : ∀ e ∈ subs.map fun sub =>
    (sub.range, (⟨.type, env.meaning site.file sub⟩ : TypeAndValue)), env.Limits e.2 := by
    intro e he
    obtain ⟨sub, -, rfl⟩ := List.mem_map.mp he
    exact nofun
  have hall := forall_insertAll h.recorded.table hentries
  rw [Table.insertAll, List.foldl_map] at hall
  rw [ht.table]
  exact hall

end

/-! ## Types -/

section
variable {env : Env}

theorem bounded_resolveType (site : Site) (e : TypeExpr) :
    Upholds env.Bounded (fun t => t = env.meaning site.file e) (resolveType env site e) :=
  fun s hs => (ends_resolveType env site e s).mono fun _ _ ht => ⟨hs.enters ht.2, ht.1⟩

theorem bounded_complain (site : Site) (offset : Nat) (cause : TypeError) :
    Upholds env.Bounded (fun _ => True) (complain site offset cause) :=
  upholds_modify fun _ hs => hs.congr rfl rfl rfl rfl

theorem bounded_reportRecursive (name : String) :
    Upholds env.Bounded (fun _ => True) (reportRecursive env name) := by
  unfold reportRecursive
  refine upholds_get.bind fun s _ => ?_
  split
  · exact upholds_pure trivial
  · refine (upholds_modify fun _ hs => hs.congr rfl rfl rfl rfl).bind fun _ _ => ?_
    split
    · exact bounded_complain _ _ _
    · exact upholds_pure trivial

/-- A basic type that is found for what a type is written as is at the end of its chain. -/
theorem bounded_underlyingWith {resolve : String → Step Ty} {name : String} {t : Ty}
    (hw : env.written? name = some t)
    (hresolve : ∀ other, Upholds env.Bounded (fun u => ∀ kind, u = .basic kind → env.Underlies other (.basic kind))
      (resolve other)) :
    Upholds env.Bounded (fun u => ∀ kind, u = .basic kind → env.Underlies name (.basic kind))
      (underlyingWith env resolve t) := by
  cases t with
  | named r =>
    unfold underlyingWith
    dsimp only
    split
    · rename_i hown
      exact (hresolve r.name).mono fun u hu kind hkind => .renamed ⟨r, hw, hown, rfl⟩ (hu kind hkind)
    · rename_i hforeign
      refine upholds_pure fun kind hkind => hkind ▸ .own hw ?_
      rintro _ ⟨⟩
      exact hforeign
  | _ => exact upholds_pure fun kind hkind => hkind ▸ .own hw nofun

theorem bounded_unknown (name : String) :
    Upholds env.Bounded (fun u => ∀ kind, u = Ty.basic kind → env.Underlies name (.basic kind)) (pure .invalid) := by
  refine upholds_pure ?_
  rintro _ ⟨⟩

theorem bounded_resolveNamedWithin (fuel : Nat) : ∀ name,
    Upholds env.Bounded (fun u => ∀ kind, u = .basic kind → env.Underlies name (.basic kind))
      (resolveNamedWithin env fuel name) := by
  induction fuel with
  | zero => exact bounded_unknown
  | succ fuel ih =>
    intro name s hs
    rw [resolveNamedWithin, ends_bind, ends_get]
    split
    · rw [ends_bind, ends_get, ends_pure]
      refine ⟨hs, fun kind hkind => hs.types name kind ?_⟩
      cases hfound : s.types.find? name with
      | none =>
        rw [hfound] at hkind
        cases hkind
      | some u =>
        rw [hfound] at hkind
        exact congrArg some hkind
    · exact ((bounded_reportRecursive name).bind fun _ _ => bounded_unknown name) s hs
    · split
      · rename_i file spec hd
        have hwritten : env.written? name = some (env.meaning file spec.type) := by rw [Env.written?, hd]
        have hfollows : Upholds env.Bounded (fun u => ∀ kind, u = .basic kind → env.Underlies name (.basic kind)) (do
            underlyingWith env (resolveNamedWithin env fuel) (← resolveType env (env.site file none) spec.type)) :=
          (bounded_resolveType _ _).bind fun t ht => bounded_underlyingWith (ht ▸ hwritten) ih
        rw [ends_bind, ends_declaring]
        refine (hfollows _ (hs.begin name)).mono fun u t hend => ?_
        obtain ⟨ht, hu⟩ := hend
        rw [ends_bind, ends_modify, ends_pure]
        refine ⟨hs.finish ht file (fun other kind hfound => ?_) ht.consts rfl rfl, hu⟩
        by_cases hother : other = name
        · subst hother
          rw [Table.find?_insert_self] at hfound
          exact hu kind (Option.some_inj.mp hfound)
        · rw [Table.find?_insert, if_neg (by simpa using hother)] at hfound
          exact ht.types other kind hfound
      · exact bounded_unknown name s hs

/-- A basic type that is found for a type is what it comes down to. -/
theorem bounded_underlying (t : Ty) :
    Upholds env.Bounded (fun u => ∀ kind, u = .basic kind → env.Amounts t kind) (underlying env t) := by
  unfold underlying underlyingWith
  cases t with
  | named r =>
    dsimp only [Env.Amounts]
    split
    · exact bounded_resolveNamedWithin _ _
    · exact upholds_pure fun kind hkind => hkind
  | basic k => exact upholds_pure fun kind => Ty.basic.inj
  | _ => exact upholds_pure nofun

theorem run_resolveNamedWithin_finished (fuel : Nat) {name : String} {s : State}
    (h : s.progress.find? name = some .finished) :
    (resolveNamedWithin env (fuel + 1) name).run s = ((s.types.find? name).getD .invalid, s) := by
  rw [resolveNamedWithin, run_bind]
  simp only [run_get, h]
  rfl

/-- A name that has an answer is finished behind it, so that asking again changes nothing. -/
theorem resolveNamedWithin_again (fuel : Nat) (name : String) (s : State) :
    Ends (resolveNamedWithin env (fuel + 1) name) s fun u t => u.isInvalid = false →
      (resolveNamedWithin env (fuel + 1) name).run t = (u, t) := by
  have hfinished : Ends (resolveNamedWithin env (fuel + 1) name) s fun u t => u.isInvalid = false →
      t.progress.find? name = some .finished ∧ (t.types.find? name).getD .invalid = u := by
    rw [resolveNamedWithin, ends_bind, ends_get]
    split
    · exact fun _ => ⟨‹_›, rfl⟩
    · rintro ⟨⟩
    · split
      · exact fun _ => ⟨Table.find?_insert_self _ _ _, congrArg (·.getD Ty.invalid) (Table.find?_insert_self _ _ _)⟩
      · rintro ⟨⟩
  refine hfinished.mono fun u t ht hu => ?_
  obtain ⟨hdone, rfl⟩ := ht hu
  exact run_resolveNamedWithin_finished fuel hdone

theorem underlying_again (t : Ty) (s : State) :
    Ends (underlying env t) s fun u s' => u.isInvalid = false → (underlying env t).run s' = (u, s') := by
  unfold underlying underlyingWith
  cases t with
  | named r =>
    dsimp only
    split
    · exact resolveNamedWithin_again _ _ _
    · exact fun _ => rfl
  | _ => exact fun _ => rfl

end

/-! ## Assignment -/

section
variable {env : Env} {tv : TypeAndValue} {target : Ty} {value : ConstValue} {kind : BasicKind} {s : State}

/-- What has a type already is assigned unchanged, and so is no number where integers are asked for. -/
theorem inLimits_assigned (hvalue : tv.const? = some value) (htv : env.Limits tv)
    (htype : tv.type.isInvalid = true ∨ env.Amounts tv.type kind) :
    (value.convert kind).InLimits := by
  refine (htv value hvalue).limits.convert fun x hx => ?_
  obtain ⟨hvalid, hkeeps⟩ := (htv value hvalue).keeps x hx
  rcases htype with hinvalid | hamounts
  · cases hvalid.symm.trans hinvalid
  · exact hkeeps kind hamounts

theorem bounded_assignable (hs : env.Bounded s) (hvalue : tv.const? = some value) (htv : env.Limits tv)
    (htarget : env.Amounts target kind) (hunder : (underlying env target).run s = (.basic kind, s)) :
    Ends (assignable env tv target) s fun fit t => env.Bounded t ∧
    (fit = .ok () → (value.convert kind).InLimits) := by
  unfold assignable
  rw [ends_bind, Ends, hunder, hvalue]
  dsimp only
  split
  · rename_i value' _ heq _
    cases heq
    exact ⟨hs, fun hfit => (htv value hvalue).limits.convert_of_fits hfit⟩
  · split
    · rename_i hsame
      exact ⟨hs, fun _ => inLimits_assigned hvalue htv (Or.inr (htarget.eq_of_same hsame ▸ htarget))⟩
    · split
      · exact ⟨hs, nofun⟩
      · rw [ends_bind]
        refine (bounded_underlying tv.type s hs).mono fun u t ⟨ht, hu⟩ => ⟨ht, fun hfit => ?_⟩
        have hsame : (u == Ty.basic kind) = true := by
          by_contra hne
          simp [hne, Ty.isAny] at hfit
        have hbasic : u = .basic kind := (show env.Amounts (.basic kind) kind from rfl).eq_of_same hsame
        exact inLimits_assigned hvalue htv (Or.inr (hu kind hbasic))

theorem bounded_assign (site : Site) (r : ByteRange) (use : Use) (hs : env.Bounded s)
    (hvalue : tv.const? = some value)
    (htv : env.Limits tv) (htarget : env.Amounts target kind)
    (hunder : (underlying env target).run s = (.basic kind, s)) :
    Ends (assign env site tv target r use) s fun fit t => env.Bounded t ∧
    (fit = true → (value.convert kind).InLimits) := by
  unfold assign
  split
  · rename_i hinvalid
    rw [htarget.not_isInvalid, Bool.or_false] at hinvalid
    exact ⟨hs, fun _ => inLimits_assigned hvalue htv (Or.inl hinvalid)⟩
  · rw [ends_bind]
    refine (bounded_assignable hs hvalue htv htarget hunder).mono fun fit t ⟨ht, hfit⟩ => ?_
    split
    · exact ⟨ht, fun _ => hfit rfl⟩
    · exact ((bounded_complain _ _ _).bind fun _ _ => upholds_pure nofun) t ht

end

/-! ## Expressions -/

section
variable {env : Env} (hlookup : ∀ file name b, env.lookup file name = some b → b.Yields env.Bounds)
include hlookup

/-- All values that come up along an expression are in the limits. -/
theorem bounded_tracks : Tracks env env.Bounded (fun _ => True) env.Limits where
  complain site offset _ _ := bounded_complain site offset _
  record r tv htv := upholds_modify fun s hs => by
    refine ⟨hs.types, hs.consts, fun e he => ?_, hs.recorded.tables⟩
    rcases Table.mem_insert he with he | rfl
    · exact hs.recorded.table e he
    · exact htv
  resolveType site e := (bounded_resolveType site e).mono fun _ _ _ _ => trivial
  underlying t _ := (bounded_underlying t).mono fun _ _ _ _ => trivial
  mentions _ _ _ := trivial
  value _ := nofun
  literal hvalue := limits_constant.mpr (bounds_untyped _ (inLimits_literalValue hvalue))
  const hb := limits_constant.mpr (hlookup _ _ _ hb)
  member hb hd := limits_constant.mpr (hlookup _ _ _ hb _ _ hd)
  signed h hsigned := limits_constant.mpr ((limits_constant.mp h).signed hsigned)

variable {constOf : String → Step (Option ConstDef)} {site : Site}

theorem bounded_constDef (hs : Supplies env.Bounded env.Limits constOf site) (name : Token) (type : TypeExpr)
    (value : Expr) :
    Upholds env.Bounded (fun d => ∀ c ∈ d, env.Bounds c) (constDef env constOf site name type value) := by
  have hnone : ∀ c ∈ (none : Option ConstDef), env.Bounds c := nofun
  have htracks := bounded_tracks hlookup
  unfold constDef
  refine (bounded_resolveType site type).bind fun declared _ => ?_
  split
  · exact htracks.complain_pure _ _ rfl hnone
  · refine (htracks.checkExpr hs value).bind fun v hv => ?_
    cases v with
    | none => exact upholds_pure hnone
    | some tv =>
      have htv := hv tv rfl
      dsimp only
      split
      · exact htracks.complain_pure _ _ rfl hnone
      · rename_i constant hconstant
        split
        · refine upholds_pure ?_
          rintro _ ⟨⟩
          exact htv constant hconstant
        · split
          · exact upholds_pure hnone
          · intro s hs
            rw [ends_bind]
            refine ((bounded_underlying declared s hs).and (underlying_again declared s)).mono fun u t
              ⟨⟨ht, hu⟩, hagain⟩ => ?_
            cases hbasic : u.basic? with
            | none => exact htracks.complain_pure _ _ rfl hnone t ht
            | some kind =>
              obtain rfl : u = .basic kind := by
                cases u <;> cases hbasic
                rfl
              rw [ends_bind]
              refine (bounded_assign site _ _ ht hconstant htv (hu kind rfl) (hagain rfl)).mono fun fit t'
                ⟨ht', hfit⟩ => ?_
              split
              · refine ⟨ht', ?_⟩
                rintro _ ⟨⟩
                exact bounds_convert (hu kind rfl) (hfit ‹_›)
              · exact ⟨ht', hnone⟩

end

/-! ## Declarations -/

section
variable {env : Env} (hlookup : ∀ file name b, env.lookup file name = some b → b.Yields env.Bounds)
  (hiota : ∀ name file id type value iota, env.decls.find? name = some (.const file id type value iota) →
    iota < intLimit)
include hlookup hiota

theorem bounded_resolveConstWithin (fuel : Nat) : ∀ name,
    Upholds env.Bounded (fun d => ∀ c ∈ d, env.Bounds c) (resolveConstWithin env fuel name) := by
  have hnone : ∀ c ∈ (none : Option ConstDef), env.Bounds c := nofun
  induction fuel with
  | zero => exact fun name => upholds_pure hnone
  | succ fuel ih =>
    intro name s hs
    rw [resolveConstWithin, ends_bind, ends_get]
    split
    · exact ⟨hs, fun c hc => hs.consts _ (Table.mem_of_find? hc)⟩
    · split
      · exact ((bounded_complain _ _ _).bind fun _ _ => upholds_pure hnone) s hs
      · exact ⟨hs, hnone⟩
    · split
      · rename_i file id type value iota hd
        have hsupplies : Supplies env.Bounded env.Limits (resolveConstWithin env fuel)
          (env.site file (some iota)) := by
          refine ⟨fun other => (ih other).mono fun d hd c hc => limits_constant.mpr (hd c hc), ?_⟩
          rintro _ ⟨⟩
          exact limits_constant.mpr (bounds_untyped (.int iota) (inLimits_of_lt (hiota _ _ _ _ _ _ hd)))
        rw [ends_bind, ends_declaring]
        refine (bounded_constDef hlookup hsupplies id type value _ (hs.begin name)).mono fun d t ⟨ht, hd⟩ => ?_
        cases d with
        | none => exact ⟨hs.finish ht file ht.types ht.consts rfl rfl, hnone⟩
        | some c =>
          refine ⟨hs.finish ht file ht.types (fun e he => ?_) rfl rfl, hd⟩
          rcases Table.mem_insert he with he | rfl
          · exact ht.consts e he
          · exact hd _ rfl
      · exact ⟨hs, hnone⟩

theorem bounded_resolveAll : Upholds env.Bounded (fun _ => True) (resolveAll env) := by
  unfold resolveAll
  refine (Upholds.forIn (fun e _ => ?_) _ _).bind fun _ _ => upholds_pure trivial
  dsimp only
  split
  · exact (bounded_resolveNamedWithin _ _).bind fun _ _ => upholds_pure trivial
  · exact (bounded_resolveConstWithin hlookup hiota _ _).bind fun _ _ => upholds_pure trivial

omit hlookup hiota in
theorem bounded_checkRecursive : Upholds env.Bounded (fun _ => True) (checkRecursive env) := by
  unfold checkRecursive
  refine (Upholds.forIn (fun e _ => ?_) _ _).bind fun _ _ => upholds_pure trivial
  refine upholds_get.bind fun s _ => ?_
  split
  · split
    · exact (bounded_reportRecursive _).bind fun _ _ =>
        (upholds_modify fun _ hs => hs.congr rfl rfl rfl rfl).bind fun _ _ => upholds_pure trivial
    · exact upholds_pure trivial
  · exact upholds_pure trivial

omit hlookup hiota in
theorem bounded_checkKeys : Upholds env.Bounded (fun _ => True) (checkKeys env) := by
  intro s hs
  refine ⟨?_, trivial⟩
  rw [run_checkKeys_verdicts]
  exact hs.congr rfl rfl rfl rfl

def Env.LimitsTag (env : Env) (tag : CheckedTag) : Prop :=
  (∀ tv ∈ tag.value, env.Limits tv) ∧ ∀ e ∈ tag.types, env.Limits e.2

theorem bounded_checkTag (file : Nat) (tag : Tag) :
    Upholds env.Bounded (fun c => ∀ t ∈ c, env.LimitsTag t) (checkTag env file tag) := by
  unfold checkTag
  split
  · have hsupplies : Supplies env.Bounded env.Limits (resolveConst env) ⟨file, .tag tag, tag.source.text, none⟩ :=
      ⟨fun other => (bounded_resolveConstWithin hlookup hiota env.fuel other).mono fun d hd c hc =>
        limits_constant.mpr (hd c hc), nofun⟩
    have hchecked := ((bounded_tracks hlookup).checkExpr hsupplies tag.expr).withTable
      (T := fun types => ∀ e ∈ types, env.Limits e.2)
      (fun s hs => ⟨hs.types, hs.consts, List.forall_mem_nil _, hs.recorded.tables⟩)
      (fun s t hs ht => ⟨ht.types, ht.consts, hs.recorded.table, ht.recorded.tables⟩) fun t ht => ht.recorded.table
    refine hchecked.bind fun r hr => upholds_pure ?_
    rintro _ ⟨⟩
    exact hr
  · exact upholds_pure nofun

theorem bounded_body : Upholds env.Bounded (EveryTag env.LimitsTag) (body env) := by
  unfold body
  refine (bounded_resolveAll hlookup hiota).bind fun _ _ => bounded_checkRecursive.bind fun _ _ =>
    bounded_checkKeys.bind fun _ _ => upholds_get.bind fun s _ => ?_
  split
  · have htags := Upholds.tagTurns (bounded_checkTag hlookup hiota)
    exact htags.bind fun tags htags => bounded_checkKeys.bind fun _ _ => upholds_pure htags
  · exact upholds_pure (List.forall_mem_nil _)

end

/-! ## The whole package -/

theorem iota_lt_of_mem_constsOf {file file' n : Nat} {token name : Token} {type : TypeExpr} {value : Expr} :
    ∀ {specs : List ConstSpec} {iota : Nat} {previous : TypeExpr × Expr},
      (token, Declared.const file name type value n) ∈ constsOf file' iota previous specs → n < iota + specs.length
  | [], _, _, h => nomatch h
  | spec :: specs, iota, _, h => by
    rcases List.mem_cons.mp h with h | h
    · cases h
      exact Nat.lt_add_of_pos_right (Nat.succ_pos _)
    · have hlt := iota_lt_of_mem_constsOf h
      rw [List.length_cons]
      omega

section
variable {f : String → Imported} {path name : String} {sources : List Source}

theorem iota_lt_environment (hgroups : ∀ s ∈ sources, ∀ d ∈ s.file.constDecls, d.specs.length ≤ intLimit)
    {other : String} {file iota : Nat} {id : Token} {type : TypeExpr} {value : Expr}
    (h : (environment f path name sources).decls.find? other = some (.const file id type value iota)) :
    iota < intLimit := by
  have hfound : (entries sources).find? other = some (.const file id type value iota) :=
    (find?_collect sources other).symm.trans h
  obtain ⟨s, i, token, hs, hd, -, -⟩ := mem_entries.mp (Table.mem_of_find? hfound)
  rcases List.mem_append.mp hd with hd | hd
  · obtain ⟨spec, -, heq⟩ := List.mem_map.mp hd
    cases heq
  · obtain ⟨decl, hdecl, hd⟩ := List.mem_flatMap.mp hd
    have hlt := iota_lt_of_mem_constsOf hd
    have hle := hgroups s (List.mem_of_getElem? hs) decl hdecl
    omega

theorem bounded_start (env : Env) : env.Bounded (start f sources) where
  types _ _ h := nomatch h
  consts := List.forall_mem_nil _
  recorded := by
    refine ⟨List.forall_mem_nil _, fun table htable => ?_⟩
    obtain ⟨_, -, rfl⟩ := List.mem_map.mp htable
    exact List.forall_mem_nil _

/-- A number that a package shows has no type of integers elsewhere, if the packages agree on types. -/
theorem keepsFloat_given (hc : Coherent f sources) (hforeign : ∀ key s, Reached f sources key s → Foreign path s)
    (hdepth : ∀ p ∈ importPaths sources, ∀ s, f p = .ok s → s.depth < 64) {p : String} {s : Surface}
    (hp : p ∈ importPaths sources)
    (hs : f p = .ok s) {e : String × ConstDef} (he : e ∈ s.consts) (hkinded : s.Kinded e.2) :
    (environment f path name sources).KeepsFloat e.2 := by
  obtain ⟨kind, hunder, hkind⟩ := hkinded
  have hfits : (environment f path name sources).Fits (fun _ _ => True) e.2 :=
    fits_given hc hforeign hdepth hp hs he hunder hkind fun _ _ => trivial
  obtain ⟨own, hamounts, hown, -⟩ := hfits
  intro x hx
  rw [hx] at hown
  refine ⟨hamounts.not_isInvalid, fun kind' hkind' => ?_⟩
  obtain rfl := hamounts.unique hkind'
  cases own <;> first | rfl | cases hown

end

end Check

/-- What an expression denotes is no integer whose negation is too large. -/
def TypeAndValue.InLimits (tv : TypeAndValue) : Prop := ∀ value, tv.const? = some value → value.InLimits

/-- No integer that a check found out has a negation that is too large. -/
structure CheckResult.InLimits (r : CheckResult) : Prop where
  consts : ∀ e ∈ r.surface.consts, e.2.value.InLimits
  types : ∀ table ∈ r.types, ∀ e ∈ table, e.2.InLimits
  tags : ∀ e ∈ r.tags, ∀ tag ∈ e.2, (∀ tv ∈ tag.value, tv.InLimits) ∧ ∀ entry ∈ tag.types, entry.2.InLimits

namespace Check

theorem Env.Limits.inLimits {env : Env} {tv : TypeAndValue} (h : env.Limits tv) : tv.InLimits :=
  fun value hvalue => (h value hvalue).limits

/-- Integers are negated within 128 bits. In a state where constants are in the limits an expression denotes none
outside of them, wherever it stands, and leads to such a state again; so does the whole check, from its beginning
on. The constants of imported packages must be in the limits, and no number among them may have a type of integers.
The groups of constants must not be longer than the greatest integer, which no list in a memory is. -/
theorem constants_in_limits (f : String → Imported) (path name : String) (sources : List Source)
    (hgroups : ∀ s ∈ sources, ∀ d ∈ s.file.constDecls, d.specs.length ≤ intLimit)
    (hgiven : ∀ p ∈ importPaths sources, ∀ s, f p = .ok s → ∀ e ∈ s.consts,
      e.2.value.InLimits ∧ (environment f path name sources).KeepsFloat e.2) :
    let env := environment f path name sources
    env.Bounded (start f sources) ∧
      (∀ fuel site e, (∀ n, site.iota = some n → n < intLimit) →
        Upholds env.Bounded (fun v => ∀ tv ∈ v, tv.InLimits) (checkExpr env (resolveConstWithin env fuel) site e)) ∧
      (check path name sources (importsBy f sources)).InLimits := by
  intro env
  have hlookup : ∀ file other b, env.lookup file other = some b → b.Yields env.Bounds := fun _ _ _ =>
    yields_environment (fun _ => bounds_untyped (.bool _) nofun) fun p hp s hs e he =>
      ⟨(hgiven p hp s hs e he).1, (hgiven p hp s hs e he).2⟩
  have hiota : ∀ other file id type value iota, env.decls.find? other = some (.const file id type value iota) →
      iota < intLimit :=
    fun _ _ _ _ _ _ => iota_lt_environment hgroups
  refine ⟨bounded_start env, fun fuel site e hsite => ?_, ?_⟩
  · have hsupplies : Supplies env.Bounded env.Limits (resolveConstWithin env fuel) site :=
      ⟨fun other => (bounded_resolveConstWithin hlookup hiota fuel other).mono fun d hd c hc =>
        limits_constant.mpr (hd c hc),
        fun n hn => limits_constant.mpr (bounds_untyped (.int n) (inLimits_of_lt (hsite n hn)))⟩
    exact ((bounded_tracks hlookup).checkExpr hsupplies e).mono fun v hv tv htv => (hv tv htv).inLimits
  · obtain ⟨hend, htags⟩ := bounded_body hlookup hiota (start f sources) (bounded_start env)
    exact ⟨fun e he => (hend.consts e he).limits, fun table htable e he =>
      (hend.recorded.tables table htable e he).inLimits,
      fun e he tag htag => ⟨fun tv htv => ((htags e he tag htag).1 tv htv).inLimits,
        fun entry hentry => ((htags e he tag htag).2 entry hentry).inLimits⟩⟩

/-- A package with a number that is too large for an integer, and the least of the integers with a negation. -/
def numberSurface : Surface :=
  ⟨"q", "q", [("F", .basic .float64)],
    [("Big", ⟨.named ⟨"q", "q", "F"⟩, .float (.infinite true)⟩),
      ("Low", ⟨.basic .untypedInt, .int (-170141183460469231731687303715884105727)⟩)], []⟩

def numberImporter (path : String) : Imported := if path = "q" then .ok numberSurface else .error "not found"

def limitFiles : List Source :=
  [.ofText ("package p\n\nimport \"q\"\n\nconst (\n\tA = -0x7fffffffffffffffffffffffffffffff\n\tB = -(+A)\n" ++
    "\tC = -iota\n)\n\nconst D = -q.Low\n\nconst E q.F = -q.Big\n")]

theorem numberImporter_ok {path : String} {s : Surface} (h : numberImporter path = .ok s) : s = numberSurface := by
  rw [numberImporter] at h
  split at h
  · cases h
    rfl
  · cases h

theorem constants_in_limits_sample :
    (check "p" "p" limitFiles (importsBy numberImporter limitFiles)).surface.consts.map (fun e => (e.1, e.2.value)) =
        [("A", .int (-170141183460469231731687303715884105727)), ("B", .int 170141183460469231731687303715884105727),
          ("C", .int (-2)), ("D", .int 170141183460469231731687303715884105727), ("E", .float (.infinite false))] ∧
      (check "p" "p" limitFiles (importsBy numberImporter limitFiles)).InLimits := by
  have honly : ∀ key s, Reached numberImporter limitFiles key s → s = numberSurface := fun key s h =>
    (reached_of_only numberSurface (fun _ _ => numberImporter_ok) rfl h).2
  have hkinded : ∀ e ∈ numberSurface.consts, numberSurface.Kinded e.2 ∧ e.2.value.InLimits := by
    intro e he
    rcases List.mem_cons.mp he with rfl | he
    · exact ⟨⟨.float64, rfl, rfl⟩, nofun⟩
    · obtain rfl := List.mem_singleton.mp he
      exact ⟨⟨.untypedInt, rfl, rfl⟩, inLimits_int.mpr (by decide)⟩
  have hlimits := constants_in_limits numberImporter "p" "p" limitFiles (by decide +kernel) fun p hp s hs e he => by
    obtain rfl := numberImporter_ok hs
    obtain ⟨hk, hin⟩ := hkinded e he
    refine ⟨hin, keepsFloat_given (fun key s t hs ht => (honly key s hs).trans (honly key t ht).symm)
      (fun key s hs => honly key s hs ▸ ⟨by decide, by decide, by decide⟩)
      (fun p _ s hs => numberImporter_ok hs ▸ by decide) hp hs he hk⟩
  exact ⟨by decide +kernel, hlimits.2.2⟩

/-- A package that has a number of a type which another one shows as a type of integers. -/
def staleImporter (path : String) : Imported :=
  if path = "q" then .ok ⟨"q", "q", [("T", .basic .int)], [], []⟩
  else .ok ⟨"r", "r", [], [("X", ⟨.named ⟨"q", "q", "T"⟩, .float (.neg (.ofDecimal 1 300))⟩)], []⟩

def staleFiles : List Source := [.ofText "package p\n\nimport \"q\"\n\nimport \"r\"\n\nconst Y q.T = r.X\n"]

/-- Such a number becomes the least integer of all. -/
example : ((check "p" "p" staleFiles (importsBy staleImporter staleFiles)).surface.consts.find? "Y").map
      ConstDef.value =
    some (.int (-intLimit)) := by decide +kernel

end Check

end IdlWorkbench
