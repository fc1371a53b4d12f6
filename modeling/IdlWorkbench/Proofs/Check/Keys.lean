import IdlWorkbench.Proofs.Check.Coverage
import IdlWorkbench.Proofs.Check.Order
import IdlWorkbench.Proofs.Check.Uphold
import IdlWorkbench.Proofs.Typing.Comparable

/-!
# Map keys are judged exactly

Each map type that is resolved has its key put aside, and nothing takes a key back before all of them are judged.
This is done twice, behind the declarations and behind the tags, and nothing else reports a map key. So the reports
are those of the keys whose values hold a slice, a map or a function, in the order in which the keys came. -/

namespace IdlWorkbench

def CheckError.isBadKey (e : CheckError) : Bool :=
  match e.cause with
  | .badMapKey _ => true
  | _ => false

instance (s : Surface) (t : Ty) : Decidable (s.Conceals t) :=
  decidable_of_iff (s.comparable t = false) (by rw [Bool.eq_false_iff, ne_eq, s.comparable_iff, not_not])

theorem Surface.not_comparable (s : Surface) (t : Ty) : (!s.comparable t) = decide (s.Conceals t) := by
  rw [Bool.eq_iff_iff, decide_eq_true_eq, Bool.not_eq_true', Bool.eq_false_iff, ne_eq, s.comparable_iff, not_not]

namespace Check

/-- The keys are put aside, and the map keys reported so far are those in `bad`. -/
structure Hoards (keys : List MapKey) (bad : List CheckError) (s : State) : Prop where
  keys : keys <+: s.keys
  bad : s.errors.filter CheckError.isBadKey = bad

section
variable {env : Env} {keys : List MapKey} {bad : List CheckError} {s t : State}

theorem isBadKey_of_isPassing {e : CheckError} (h : e.cause.isPassing = true) : e.isBadKey = false := by
  unfold CheckError.isBadKey
  split
  · rename_i hcause
    rw [hcause] at h
    cases h
  · rfl

theorem Hoards.congr (h : Hoards keys bad s) (hk : t.keys = s.keys) (he : t.errors = s.errors) : Hoards keys bad t :=
  ⟨hk ▸ h.keys, he ▸ h.bad⟩

theorem Hoards.aside (h : Hoards keys bad s) (ha : Aside s t) : Hoards keys bad t := by
  refine ⟨h.keys.trans ha.keys, ?_⟩
  obtain ⟨new, hnew, hpass⟩ := ha.errors
  rw [hnew, List.filter_append, h.bad, List.filter_eq_nil_iff.mpr, List.nil_append]
  intro e he
  rw [isBadKey_of_isPassing (hpass e he)]
  exact Bool.false_ne_true

theorem Hoards.ends_reportRecursive (h : Hoards keys bad s) (name : String) :
    Ends (reportRecursive env name) s fun _ t => Hoards keys bad t := by
  unfold reportRecursive
  rw [ends_bind, ends_get]
  split
  · exact h
  · rw [ends_bind, ends_modify]
    split
    · exact ⟨h.keys, h.bad⟩
    · exact ⟨h.keys, h.bad⟩

/-! ## Resolving -/

theorem hoards_resolveNamedWithin (env : Env) (fuel : Nat) : ∀ (name : String) (s : State),
    Hoards keys bad s → Ends (resolveNamedWithin env fuel name) s fun _ t => Hoards keys bad t := by
  induction fuel with
  | zero => exact fun _ _ h => h
  | succ fuel ih =>
    intro name s h
    rw [resolveNamedWithin, ends_bind, ends_get]
    split
    · exact h
    · rw [ends_bind]
      exact h.ends_reportRecursive name
    · split
      · rename_i file spec _
        have hbegun : Hoards keys bad (s.begin name) := h.congr rfl rfl
        rw [ends_bind, ends_declaring, ends_bind]
        refine (ends_resolveType env (env.site file none) spec.type _).mono fun a t hresolved => ?_
        have ht := hbegun.aside hresolved.2.aside
        unfold underlyingWith
        split
        · split
          · exact (ih _ t ht).mono fun _ u hu => hu.congr rfl rfl
          · exact ht.congr rfl rfl
        · exact ht.congr rfl rfl
      · exact h

theorem brings_any {b : Binding} : b.Brings fun _ => True := by
  unfold Binding.Brings
  split
  · exact fun _ _ => trivial
  · exact fun _ _ => trivial
  · exact ⟨fun _ _ => trivial, fun _ _ _ _ _ => trivial⟩
  · trivial

theorem hoards_setting (env : Env) : Setting env (Hoards keys bad) fun _ => True where
  aside _ _ ha hs := hs.aside ha
  named _ _ := trivial
  lookup _ _ _ _ := brings_any
  underlying t _ s hs := by
    unfold underlying underlyingWith
    split
    · split
      · exact (hoards_resolveNamedWithin env env.fuel _ s hs).mono fun _ _ ht => ⟨ht, fun _ _ => trivial⟩
      · exact ⟨hs, fun _ _ => trivial⟩
    · exact ⟨hs, fun _ _ => trivial⟩

theorem hoards_resolveConstWithin (env : Env) (fuel : Nat) : ∀ name,
    Upholds (Hoards keys bad) (DefMentions fun _ => True) (resolveConstWithin env fuel name) := by
  have hany (d : Option ConstDef) : DefMentions (fun _ => True) d := fun _ _ _ _ => trivial
  induction fuel with
  | zero => exact fun _ => upholds_pure (hany _)
  | succ fuel ih =>
    intro name s hs
    rw [resolveConstWithin, ends_bind, ends_get]
    split
    · exact ⟨hs, hany _⟩
    · split
      · exact (hoards_setting env).complain_pure _ _ rfl (hany _) s hs
      · exact ⟨hs, hany _⟩
    · split
      · rename_i file id type value iota _
        have hbegun : Hoards keys bad (s.begin name) := hs.congr rfl rfl
        rw [ends_bind, ends_declaring]
        refine ((hoards_setting env).constDef ih _ id type value _ hbegun).mono fun d t ht => ?_
        cases d <;> exact ⟨ht.1.congr rfl rfl, hany _⟩
      · exact ⟨hs, hany _⟩

theorem hoards_askAll (env : Env) : ∀ (ds : Table String Declared) {s : State},
    Hoards keys bad s → Hoards keys bad (askAll env ds s)
  | [], _, h => h
  | (name, .type _ _) :: ds, s, h => hoards_askAll env ds (hoards_resolveNamedWithin env env.fuel name s h)
  | (name, .const ..) :: ds, s, h => hoards_askAll env ds (hoards_resolveConstWithin env env.fuel name s h).1

theorem hoards_checkRecursive (env : Env) {s : State} (h : Hoards keys bad s) :
    Hoards keys bad ((checkRecursive env).run s).2 := by
  have hturn (e : String × Declared) (u : PUnit) : Upholds (Hoards keys bad) (fun _ => True)
    (recursiveTurn env e) := by
    intro s hs
    unfold recursiveTurn
    rw [ends_bind, ends_get]
    split
    · split
      · rw [ends_bind]
        exact (hs.ends_reportRecursive e.1).mono fun _ t ht => ⟨ht.congr rfl rfl, trivial⟩
      · exact ⟨hs, trivial⟩
    · exact ⟨hs, trivial⟩
  rw [checkRecursive_eq]
  exact (Upholds.forIn (f := fun e _ => recursiveTurn env e) hturn env.decls ⟨⟩ s h).1

end

/-! ## Putting keys aside -/

def Env.keysAt (env : Env) (site : Site) (spots : List Spot) : List MapKey :=
  spots.filterMap fun
    | .type e => env.mapKey? site e
    | .value _ => none

def Env.keysOf (env : Env) (d : Declared) : List MapKey := env.keysAt (env.site d.file none) d.spots

/-- Some keys are put aside, and of each finished declaration all of them. -/
structure Amassed (env : Env) (keys : List MapKey) (s : State) : Prop where
  held : keys ⊆ s.keys
  finished : ∀ n d, env.decls.find? n = some d → s.progress.find? n = some .finished → env.keysOf d ⊆ s.keys

section
variable {env : Env} {keys : List MapKey} {s t : State} {site : Site}

theorem keysAt_append (spots spots' : List Spot) :
    env.keysAt site (spots ++ spots') = env.keysAt site spots ++ env.keysAt site spots' := List.filterMap_append

theorem keysAt_value (e : Expr) : env.keysAt site [.value e] = [] := rfl

theorem keysAt_spots (e : TypeExpr) : env.keysAt site e.spots = e.subs.filterMap (env.mapKey? site) := by
  unfold Env.keysAt TypeExpr.spots
  rw [List.filterMap_map]
  rfl

theorem Amassed.grow (h : Amassed env keys s) (hprogress : t.progress = s.progress) (hkeys : s.keys ⊆ t.keys)
    {more : List MapKey} (hmore : more ⊆ t.keys) : Amassed env (keys ++ more) t where
  held := List.append_subset.mpr ⟨List.Subset.trans h.held hkeys, hmore⟩
  finished n d hd hf := List.Subset.trans (h.finished n d hd (hprogress ▸ hf)) hkeys

theorem Amassed.congr (h : Amassed env keys s) (hprogress : t.progress = s.progress) (hkeys : s.keys ⊆ t.keys) :
    Amassed env keys t where
  held := List.Subset.trans h.held hkeys
  finished n d hd hf := List.Subset.trans (h.finished n d hd (hprogress ▸ hf)) hkeys

theorem Amassed.aside (h : Amassed env keys s) (ha : Aside s t) : Amassed env keys t :=
  h.congr (congrArg Core.progress ha.core) ha.keys.subset

theorem Amassed.begin (h : Amassed env keys s) (name : String) : Amassed env keys (s.begin name) where
  held := h.held
  finished n d hd hf := by
    refine h.finished n d hd ?_
    by_cases he : n = name
    · simp [State.begin, Table.find?_insert, he] at hf
    · simpa [State.begin, Table.find?_insert, he] using hf

/-- A declaration whose keys have been put aside is finished. -/
theorem Amassed.finish {name : String} {d : Declared} (h : Amassed env (keys ++ env.keysOf d) s)
    (hd : env.decls.find? name = some d) (hprogress : t.progress = s.progress.insert name .finished)
    (hkeys : t.keys = s.keys) : Amassed env keys t where
  held := hkeys ▸ List.Subset.trans (List.subset_append_left ..) h.held
  finished n d' hd' hf := by
    rw [hkeys]
    by_cases he : n = name
    · obtain rfl := he
      cases hd.symm.trans hd'
      exact List.Subset.trans (List.subset_append_right ..) h.held
    · rw [hprogress, Table.find?_insert, beq_false_of_ne he] at hf
      exact h.finished n d' hd' hf

theorem Amassed.ends_resolveType (h : Amassed env keys s) (site : Site) (e : TypeExpr) :
    Ends (resolveType env site e) s fun _ t => Amassed env (keys ++ env.keysAt site e.spots) t := by
  refine (Check.ends_resolveType env site e s).mono fun _ t ht => ?_
  have hkeys := ht.2.keys
  rw [keysAt_spots]
  refine h.grow (congrArg Core.progress ht.2.core) ?_ ?_ <;> rw [hkeys]
  · exact List.subset_append_left ..
  · exact List.subset_append_right ..

theorem amassed_reportRecursive (name : String) : Upholds (Amassed env keys) (fun _ => True)
      (reportRecursive env name) := by
  intro s hs
  unfold reportRecursive
  rw [ends_bind, ends_get]
  split
  · exact ⟨hs, trivial⟩
  · rw [ends_bind, ends_modify]
    split
    · exact ⟨hs.congr rfl fun _ => id, trivial⟩
    · exact ⟨hs.congr rfl fun _ => id, trivial⟩

theorem amassed_resolveNamedWithin (fuel : Nat) : ∀ {keys : List MapKey} (name : String),
    Upholds (Amassed env keys) (fun _ => True) (resolveNamedWithin env fuel name) := by
  induction fuel with
  | zero => exact fun _ => upholds_pure trivial
  | succ fuel ih =>
    intro keys name s hs
    rw [resolveNamedWithin, ends_bind, ends_get]
    split
    · exact ⟨hs, trivial⟩
    · exact (amassed_reportRecursive name).bind (fun _ _ => upholds_pure trivial) s hs
    · split
      · rename_i file spec hd
        rw [ends_bind, ends_declaring, ends_bind]
        refine ((hs.begin name).ends_resolveType (env.site file none) spec.type).mono fun a t ht => ?_
        refine (upholds_underlyingWith (fun name => ih name) a t ht).mono fun u v hv => ?_
        exact ⟨hv.1.finish hd rfl rfl, trivial⟩
      · exact ⟨hs, trivial⟩

theorem amassed_setting : Setting env (Amassed env keys) fun _ => True where
  aside _ _ ha hs := hs.aside ha
  named _ _ := trivial
  lookup _ _ _ _ := brings_all
  underlying t _ := (upholds_underlyingWith (fun name => amassed_resolveNamedWithin env.fuel name) t).mono
    fun _ _ _ _ => trivial

/-- The types in an expression are resolved whatever is wrong with it. -/
theorem amassed_checkExpr {constOf : String → Step (Option ConstDef)}
    (hc : ∀ keys name, Upholds (Amassed env keys) (DefMentions fun _ => True) (constOf name)) (site : Site)
    (e : Expr)
    {keys : List MapKey} {s : State} (h : Amassed env keys s) :
    Ends (checkExpr env constOf site e) s fun _ t => Amassed env (keys ++ env.keysAt site e.spots) t := by
  have hrecord {keys : List MapKey} (r : ByteRange) (v : Option TypeAndValue) :
      Upholds (Amassed env keys) (fun _ => True) (recordValue r v) := amassed_setting.recordValue r trivial
  have hnone {e : Expr} (hnil : env.keysAt site e.spots = []) {s : State} (h : Amassed env keys s) :
      Ends (checkExpr env constOf site e) s fun _ t => Amassed env (keys ++ env.keysAt site e.spots) t := by
    rw [hnil, List.append_nil]
    exact (amassed_setting.checkExpr (hc keys) site e s h).mono fun _ _ ht => ht.1
  cases e with
  | missing => exact hnone rfl h
  | literal t => exact hnone rfl h
  | name id => exact hnone rfl h
  | selector range qualifier id => exact hnone rfl h
  | paren range inner =>
    rw [checkExpr, ends_bind, Expr.spots, keysAt_append, keysAt_value, List.append_nil]
    exact (amassed_checkExpr hc site inner h).mono fun v t ht => (hrecord range v t ht).mono fun _ _ hu => hu.1
  | unary range op operand =>
    rw [checkExpr, ends_bind, Expr.spots, keysAt_append, keysAt_value, List.append_nil]
    refine (amassed_checkExpr hc site operand h).mono fun v t ht => ?_
    cases v with
    | none => exact ht
    | some tv =>
      refine (Upholds.bind (Q := fun _ => True) ?_ (fun v _ => hrecord range v) t ht).mono fun _ _ hu => hu.1
      unfold signedOperand
      split
      · exact upholds_pure trivial
      · exact amassed_setting.complain_pure _ _ rfl trivial
  | composite range type _ body =>
    rw [checkExpr, ends_bind, Expr.spots]
    refine (h.ends_resolveType site type).mono fun t u hu => ?_
    have hbody := amassed_setting.checkBody (hc (keys ++ env.keysAt site type.spots)) site (t := t)
      (fun _ _ => trivial)
      range.start false body
    exact (hbody.bind (fun v _ => hrecord range v) u hu).mono fun _ _ hv => hv.1
  | type t _ =>
    rw [checkExpr, ends_bind, Expr.spots]
    refine (h.ends_resolveType site t).mono fun _ u hu => ?_
    exact (amassed_setting.complain_pure _ _ rfl (Q := fun _ => True) trivial u hu).mono fun _ _ hv => hv.1

theorem amassed_constDef {constOf : String → Step (Option ConstDef)}
    (hc : ∀ keys name, Upholds (Amassed env keys) (DefMentions fun _ => True) (constOf name)) (site : Site)
    (name : Token)
    (type : TypeExpr) (value : Expr) {keys : List MapKey} {s : State} (h : Amassed env keys s) :
    Ends (constDef env constOf site name type value) s fun _ t =>
      Amassed env (keys ++ env.keysAt site (type.spots ++ value.spots)) t := by
  rw [keysAt_append, ← List.append_assoc]
  unfold constDef
  rw [ends_bind]
  refine (h.ends_resolveType site type).mono fun declared t ht => ?_
  have hkept {keys : List MapKey} {x : Step (Option ConstDef)} (hx : Upholds (Amassed env keys) (fun _ => True) x)
      {u : State} (hu : Amassed env keys u) : Ends x u fun _ v => Amassed env keys v :=
        (hx u hu).mono fun _ _ hv => hv.1
  split
  · rename_i hmissing
    obtain rfl : value = .missing := by
      cases value <;> first | rfl | cases hmissing
    rw [show env.keysAt site Expr.missing.spots = [] from rfl, List.append_nil]
    exact hkept (amassed_setting.complain_pure _ _ rfl trivial) ht
  · rw [ends_bind]
    refine (amassed_checkExpr hc site value ht).mono fun v u hu => ?_
    cases v with
    | none => exact hu
    | some tv =>
      refine hkept ?_ hu
      dsimp only
      split
      · exact amassed_setting.complain_pure _ _ rfl trivial
      · split
        · exact upholds_pure trivial
        · split
          · exact upholds_pure trivial
          · refine (amassed_setting.underlying declared fun _ _ => trivial).bind fun under _ => ?_
            split
            · exact amassed_setting.complain_pure _ _ rfl trivial
            · refine (amassed_setting.tracks.assign site _ _ (fun _ _ => trivial) fun _ _ => trivial).bind fun fit
                _ => ?_
              split <;> exact upholds_pure trivial

theorem amassed_resolveConstWithin (fuel : Nat) : ∀ (keys : List MapKey) (name : String),
    Upholds (Amassed env keys) (DefMentions fun _ => True) (resolveConstWithin env fuel name) := by
  have hany (d : Option ConstDef) : DefMentions (fun _ => True) d := fun _ _ _ _ => trivial
  induction fuel with
  | zero => exact fun _ _ => upholds_pure (hany _)
  | succ fuel ih =>
    intro keys name s hs
    rw [resolveConstWithin, ends_bind, ends_get]
    split
    · exact ⟨hs, hany _⟩
    · split
      · exact amassed_setting.complain_pure _ _ rfl (hany _) s hs
      · exact ⟨hs, hany _⟩
    · split
      · rename_i file id type value iota hd
        rw [ends_bind, ends_declaring]
        refine (amassed_constDef ih (env.site file (some iota)) id type value (hs.begin name)).mono fun d t ht => ?_
        have ht : Amassed env (keys ++ env.keysOf (.const file id type value iota)) t := ht
        cases d with
        | none => exact ⟨ht.finish hd rfl rfl, hany _⟩
        | some c => exact ⟨ht.finish hd rfl rfl, hany _⟩
      · exact ⟨hs, hany _⟩

theorem amassed_askAll : ∀ (ds : Table String Declared) {s : State},
    Amassed env keys s → Amassed env keys (askAll env ds s)
  | [], _, h => h
  | (name, .type _ _) :: ds, s, h => amassed_askAll ds (amassed_resolveNamedWithin env.fuel name s h).1
  | (name, .const ..) :: ds, s, h => amassed_askAll ds (amassed_resolveConstWithin env.fuel keys name s h).1

end

/-! ## Judging -/

def verdicts (env : Env) (shown : Surface) (keys : List MapKey) : List CheckError :=
  (keys.filter fun key => shown.Conceals key.type).map (report env)

theorem filter_verdicts (env : Env) (shown : Surface) (keys : List MapKey) :
    (verdicts env shown keys).filter CheckError.isBadKey = verdicts env shown keys := by
  rw [List.filter_eq_self]
  intro e he
  obtain ⟨key, -, rfl⟩ := List.mem_map.mp he
  rfl

theorem run_checkKeys_verdicts (env : Env) (s : State) : ((checkKeys env).run s).2 =
    { s with keys := [], errors := (verdicts env (surface env s) s.keys).reverse ++ s.errors } := by
  simp only [run_checkKeys_eq, verdicts, Surface.not_comparable]

def judged (env : Env) (s : State) : State :=
  ((checkKeys env).run ((checkRecursive env).run ((resolveAll env).run s).2).2).2

/-- The keys that tags put aside, which are looked into only if nothing was wrong before. -/
def taggedKeys (env : Env) (s : State) : List MapKey :=
  if s.errors.isEmpty then ((tagTurns env).run s).2.keys else []

section
variable {env : Env} {s : State}

theorem hoards_self (s : State) : Hoards s.keys (s.errors.filter CheckError.isBadKey) s := ⟨List.prefix_rfl, rfl⟩

theorem bad_resolveAll (env : Env) (s : State) :
    ((resolveAll env).run s).2.errors.filter CheckError.isBadKey = s.errors.filter CheckError.isBadKey := by
  rw [run_resolveAll]
  exact (hoards_askAll env env.decls (hoards_self s)).bad

theorem ends_reportRecursive_frame (env : Env) (name : String) (s : State) :
    Ends (reportRecursive env name) s fun _ t => ∃ names errors, t = { s with recursive := names, errors } := by
  unfold reportRecursive
  rw [ends_bind, ends_get]
  split
  · exact ⟨_, _, rfl⟩
  · rw [ends_bind, ends_modify]
    split <;> exact ⟨_, _, rfl⟩

/-- The search for recursive types notes names and reports. -/
theorem run_checkRecursive (env : Env) (s : State) :
    ∃ names errors, ((checkRecursive env).run s).2 = { s with recursive := names, errors } := by
  have hturn (e : String × Declared) (u : PUnit) :
      Upholds (fun t => ∃ names errors, t = { s with recursive := names, errors }) (fun _ => True)
        (recursiveTurn env e) := by
    rintro _ ⟨names, errors, rfl⟩
    unfold recursiveTurn
    rw [ends_bind, ends_get]
    split
    · split
      · rw [ends_bind]
        refine (ends_reportRecursive_frame env e.1 _).mono fun _ t ht => ?_
        obtain ⟨names', errors', rfl⟩ := ht
        exact ⟨⟨_, _, rfl⟩, trivial⟩
      · exact ⟨⟨_, _, rfl⟩, trivial⟩
    · exact ⟨⟨_, _, rfl⟩, trivial⟩
  rw [checkRecursive_eq]
  exact (Upholds.forIn (f := fun e _ => recursiveTurn env e) hturn env.decls ⟨⟩ s ⟨_, _, rfl⟩).1

/-- Behind the declarations the keys put aside were judged, given the types that were found. -/
theorem run_judged (env : Env) (s : State) :
    let resolved := ((resolveAll env).run s).2
    surface env (judged env s) = surface env resolved ∧ (judged env s).keys = [] ∧
      (judged env s).errors.filter CheckError.isBadKey =
        (verdicts env (surface env resolved) resolved.keys).reverse ++ s.errors.filter CheckError.isBadKey := by
  intro resolved
  have hbad := (hoards_checkRecursive env (hoards_self resolved)).bad
  obtain ⟨names, errors, hframe⟩ := run_checkRecursive env resolved
  rw [hframe, bad_resolveAll] at hbad
  have hjudged : judged env s = ((checkKeys env).run { resolved with recursive := names, errors }).2 := by
    rw [judged, ← hframe]
  rw [hjudged, run_checkKeys_verdicts]
  refine ⟨rfl, rfl, ?_⟩
  rw [List.filter_append, List.filter_reverse, filter_verdicts]
  exact congrArg _ hbad

/-- Behind the tags the keys that they put aside were judged. -/
theorem run_body_keys (env : Env) (s : State) :
    ((body env).run s).2.errors.filter CheckError.isBadKey =
      (verdicts env (surface env ((body env).run s).2) (taggedKeys env (judged env s))).reverse ++
        (judged env s).errors.filter CheckError.isBadKey := by
  have hbody : ((body env).run s).2 = if (judged env s).errors.isEmpty then
      ((checkKeys env).run ((tagTurns env).run (judged env s)).2).2 else judged env s := run_body env s
  unfold taggedKeys
  by_cases hempty : (judged env s).errors.isEmpty = true
  · have hbad :=
      ((hoards_setting env).tagTurns (hoards_resolveConstWithin env env.fuel) _ (hoards_self (judged env s))).1.bad
    rw [hbody, if_pos hempty, if_pos hempty, run_checkKeys_verdicts]
    rw [List.filter_append, List.filter_reverse, filter_verdicts]
    exact congrArg _ hbad
  · rw [hbody, if_neg hempty, if_neg hempty]
    rfl

end

/-! ## What a check starts with -/

theorem passing_imports {imported : Table String Imported} {file : Nat} :
    ∀ {is : List (Token × String × Option String)}
    {a : FileImports}, (∀ e ∈ a.errors, e.cause.isPassing = true) →
    ∀ e ∈ (is.foldl (addImport file imported) a).errors, e.cause.isPassing = true
  | [], _, h => h
  | i :: is, a, h => by
    refine @passing_imports imported file is _ fun e he => ?_
    rw [errors_addImport] at he
    rcases List.mem_append.mp he with he | he
    · exact h e he
    · split at he
      · cases he
      · rw [List.mem_singleton.mp he]
        rfl

theorem passing_declare : ∀ {es : List (Token × Declared)} {a : Table String Declared × List CheckError},
    (∀ e ∈ a.2, e.cause.isPassing = true) → ∀ e ∈ (es.foldl declare a).2, e.cause.isPassing = true
  | [], _, h => h
  | (name, d) :: es, (decls, errors), h => by
    rw [List.foldl_cons, declare]
    split
    · exact passing_declare h
    · split
      · refine passing_declare (List.forall_mem_append.mpr ⟨h, fun e he => ?_⟩)
        rw [List.mem_singleton.mp he]
        rfl
      · exact passing_declare h

/-- Imports that fail and names that are taken are reported first. -/
theorem passing_start (f : String → Imported) (sources : List Source) :
    ∀ e ∈ (start f sources).errors, e.cause.isPassing = true := by
  intro e he
  rcases List.mem_append.mp (List.mem_reverse.mp he) with he | he
  · obtain ⟨a, ha, he⟩ := List.mem_flatMap.mp he
    obtain ⟨s, -, rfl⟩ := List.mem_map.mp ha
    exact passing_imports (List.forall_mem_nil _) e he
  · exact passing_declare (List.forall_mem_nil _) e he

/-- When all is resolved, the keys of all declarations are put aside. -/
theorem keysOf_subset {f : String → Imported} {path name : String} {sources : List Source} {n : String}
    {d : Declared}
    (hd : (environment f path name sources).decls.find? n = some d) :
    (environment f path name sources).keysOf d ⊆
      ((resolveAll (environment f path name sources)).run (start f sources)).2.keys := by
  have hstart : Covered (environment f path name sources) _ _ (start f sources) := covered_start
  have hfinished := (covered_resolveAll (fun _ _ => file_lt) (nodup_collect sources) hstart).kept n
    (Table.mem_keys_iff.mpr ⟨d, hd⟩)
  have hamassed : Amassed (environment f path name sources) [] (start f sources) :=
    ⟨List.nil_subset _, fun _ _ _ hf => nomatch hf⟩
  have hend := amassed_askAll (environment f path name sources).decls hamassed
  rw [← run_resolveAll] at hend
  exact hend.finished n d hd hfinished

end Check

open Check

/-- Map keys are judged exactly. Whatever is resolved puts the keys of its map types aside, keys are not lost on the
way, so that those of all declarations are there in the end, and the reports of a check are those of the keys whose
values hold a slice, a map or a function. -/
theorem map_keys_judged (f : String → Imported) (path name : String) (sources : List Source) :
    let env := environment f path name sources
    let resolved := ((resolveAll env).run (start f sources)).2
    let result := check path name sources (importsBy f sources)
    (∀ site e s, ((resolveType env site e).run s).2.keys = s.keys ++ e.subs.filterMap (env.mapKey? site)) ∧
    (∀ other s, s.keys <+: ((resolveNamed env other).run s).2.keys ∧
      s.keys <+: ((resolveConst env other).run s).2.keys) ∧
    (∀ n d, env.decls.find? n = some d → env.keysOf d ⊆ resolved.keys) ∧
    result.errors.filter CheckError.isBadKey = verdicts env (surface env resolved) resolved.keys ++
      verdicts env result.surface (taggedKeys env (judged env (start f sources))) := by
  intro env resolved result
  refine ⟨fun site e s => (ends_resolveType env site e s).2.keys, fun other s => ⟨?_, ?_⟩, fun n d hd => ?_, ?_⟩
  · exact (hoards_resolveNamedWithin env env.fuel other s (hoards_self s)).keys
  · exact (hoards_resolveConstWithin env env.fuel other s (hoards_self s)).1.keys
  · exact keysOf_subset hd
  · have hjudged := (run_judged env (start f sources)).2.2
    have hstart : (start f sources).errors.filter CheckError.isBadKey = [] :=
      List.filter_eq_nil_iff.mpr fun e he => by
      rw [isBadKey_of_isPassing (passing_start f sources e he)]
      exact Bool.false_ne_true
    rw [hstart, List.append_nil] at hjudged
    have herrors : result.errors = ((body env).run (start f sources)).2.errors.reverse := errors_check path name
    rw [herrors, List.filter_reverse, run_body_keys, hjudged, List.reverse_append, List.reverse_reverse,
      List.reverse_reverse]
    rfl

end IdlWorkbench
