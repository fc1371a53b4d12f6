import IdlWorkbench.Proofs.Check.Places
import IdlWorkbench.Proofs.Check.Stepwise
import IdlWorkbench.Proofs.Check.Uphold

/-!
# What a check leaves in a table

Where nothing is reported, the check of a declaration enters each type that it is made of, with what that denotes.
It enters values besides, but nothing else: what stands between the braces of a literal is looked into only if the
literal is a value, and then it is refused as a constant. -/

namespace IdlWorkbench.Check

/-! ## Entries -/

def Env.Marks (env : Env) (file : Nat) : Spot → TypeAndValue → Prop
  | .type e, tv => tv = ⟨.type, env.meaning file e⟩ ∧ env.Denotes file e
  | .value _, _ => True

/-- From one table to the other the types among these were entered, and nothing else but the values among them. -/
structure Fills (env : Env) (file : Nat) (spots : List Spot) (T U : TypeTable) : Prop where
  kept : ∀ r, T.contains r = true → U.contains r = true
  entered : ∀ e, Spot.type e ∈ spots → U.contains e.range = true
  origin : ∀ r tv, (r, tv) ∈ U → (r, tv) ∈ T ∨ ∃ x ∈ spots, x.range = r ∧ env.Marks file x tv

section
variable {env : Env} {file : Nat} {site : Site} {spots spots' : List Spot} {T U V : TypeTable} {x : Spot}

theorem fills_nil (T : TypeTable) : Fills env file [] T T := ⟨fun _ => id, nofun, fun _ _ => Or.inl⟩

theorem Fills.trans (h : Fills env file spots T U) (h' : Fills env file spots' U V) :
    Fills env file (spots ++ spots') T V where
  kept r hr := h'.kept r (h.kept r hr)
  entered e he := (List.mem_append.mp he).elim (fun he => h'.kept _ (h.entered e he)) (h'.entered e)
  origin r tv htv := by
    rcases h'.origin r tv htv with htv | ⟨x, hx, hmarks⟩
    · exact (h.origin r tv htv).imp_right fun ⟨x, hx, hmarks⟩ => ⟨x, List.mem_append_left _ hx, hmarks⟩
    · exact Or.inr ⟨x, List.mem_append_right _ hx, hmarks⟩

theorem contains_insert (T : TypeTable) (r q : ByteRange) (tv : TypeAndValue) :
    (T.insert r tv).contains q = (q == r || T.contains q) := by
  rw [Table.contains, Table.contains, Table.find?_insert]
  cases q == r <;> rfl

theorem fills_insert {tv : TypeAndValue} (h : env.Marks file x tv) : Fills env file [x] T (T.insert x.range tv) where
  kept r hr := by simp [contains_insert, hr]
  entered e he := by
    obtain rfl := List.mem_singleton.mp he
    simp [contains_insert, Spot.range]
  origin r tv htv := by
    rcases Table.mem_or_eq_of_mem_insert htv with htv | heq
    · exact Or.inl htv
    · cases heq
      exact Or.inr ⟨x, List.mem_singleton_self x, rfl, h⟩

/-- A value need not be entered. -/
theorem fills_value (e : Expr) (T : TypeTable) : Fills env file [.value e] T T :=
  ⟨fun _ => id, fun _ h => (nomatch List.mem_singleton.mp h), fun _ _ => Or.inl⟩

theorem fills_foldl : ∀ {subs : List TypeExpr} {T : TypeTable},
    (∀ sub ∈ subs, env.Denotes file sub) → Fills env file (subs.map .type)
      T (subs.foldl (fun table sub => table.insert sub.range ⟨.type, env.meaning file sub⟩) T)
  | [], T, _ => fills_nil T
  | sub :: subs, T, h => by
    have hone : Fills env file [.type sub] T (T.insert sub.range ⟨.type, env.meaning file sub⟩) :=
      fills_insert (x := .type sub) ⟨rfl, h sub List.mem_cons_self⟩
    exact hone.trans (fills_foldl fun sub hsub => h sub (List.mem_cons_of_mem _ hsub))

/-- Resolving a type expression enters the types that it is made of. -/
theorem Enters.fills {e : TypeExpr} {s t : State} (h : Enters env site e.subs s t) (ht : t.errors = []) :
    s.errors = [] ∧ Fills env site.file e.spots s.table t.table := by
  obtain ⟨new, hnew, -, hnone⟩ := h.errors
  rw [hnew] at ht
  obtain ⟨hnil, hs⟩ := List.append_eq_nil_iff.mp ht
  refine ⟨hs, ?_⟩
  rw [h.table]
  exact fills_foldl (hnone hnil)

end

/-! ## Steps that report nothing -/

/-- If nothing was reported up to the end of the step, then nothing was before it, and it has done `Q`. -/
def Cleanly {α : Type} (x : Step α) (Q : α → State → State → Prop) : Prop :=
  ∀ s, Ends x s fun a t => t.errors = [] → s.errors = [] ∧ Q a s t

abbrev Spares {α : Type} (x : Step α) : Prop := Cleanly x fun _ s t => t.table = s.table

section
variable {α β : Type} {env : Env} {x : Step α} {f : α → Step β} {Q : α → State → State → Prop}
    {R : α → β → State → State → Prop}
  {S : β → State → State → Prop}

theorem cleanly_pure {a : α} (h : ∀ s, Q a s s) : Cleanly (pure a) Q := fun s hs => ⟨hs, h s⟩

theorem Cleanly.bind (hx : Cleanly x Q) (hf : ∀ a, Cleanly (f a) (R a))
    (h : ∀ a b s t u, Q a s t → R a b t u → S b s u) : Cleanly (x >>= f) S := by
  intro s
  rw [ends_bind]
  refine (hx s).mono fun a t ht => (hf a t).mono fun b u hu hclean => ?_
  obtain ⟨hmid, hr⟩ := hu hclean
  obtain ⟨hstart, hq⟩ := ht hmid
  exact ⟨hstart, h a b s t u hq hr⟩

theorem Cleanly.mono {P : α → State → State → Prop} (hx : Cleanly x Q) (h : ∀ a s t, Q a s t → P a s t) :
    Cleanly x P :=
  fun s => (hx s).mono fun a t ht hclean => ⟨(ht hclean).1, h a s t (ht hclean).2⟩

theorem cleanly_get {Q : State → State → State → Prop} (h : ∀ s, Q s s s) : Cleanly get Q := fun s hs => ⟨hs, h s⟩

theorem cleanly_modify {g : State → State} {Q : PUnit → State → State → Prop} (hg : ∀ s, (g s).errors = s.errors)
    (h : ∀ s, Q ⟨⟩ s (g s)) : Cleanly (modify g) Q := fun s hs => ⟨(hg s).symm.trans hs, h s⟩

/-- Whatever comes behind a report. -/
theorem cleanly_complain (site : Site) (offset : Nat) (cause : TypeError) {Q : PUnit → State → State → Prop} :
    Cleanly (complain site offset cause) Q := fun _ hs => nomatch hs

theorem cleanly_complain_pure (site : Site) (offset : Nat) (cause : TypeError) (a : α) :
    Cleanly (complain site offset cause >>= fun _ => pure a) Q := fun _ hs => nomatch hs

theorem Spares.bind (hx : Spares x) (hf : ∀ a, Spares (f a)) : Spares (x >>= f) :=
  Cleanly.bind hx hf fun _ _ _ _ _ h h' => h'.trans h

/-- No report is taken back. -/
theorem cleanly_of_keeps (h : Keeps env x) : Cleanly x fun _ _ _ => True := by
  have hR : Stepwise env fun s t => t.errors = [] → s.errors = [] := {
    trans := fun h h' ht => h (h' ht)
    aside := fun _ _ h ht => List.suffix_nil.mp (ht ▸ h)
    record := fun _ _ _ _ => id
    apart := fun h => h
    declare := fun _ h => h }
  exact fun s => (h _ hR s).mono fun _ _ ht hclean => ⟨ht.1 hclean, trivial⟩

/-- A declaration has a table of its own. -/
theorem spares_declaring (h : Keeps env x) (name : String) (file : Nat) : Spares (declaring name file x) := by
  intro s
  rw [ends_declaring]
  exact (cleanly_of_keeps h (s.begin name)).mono fun a t ht hclean => ⟨(ht hclean).1, rfl⟩

end

/-! ## Steps that record nothing -/

section
variable (env : Env)

theorem spares_reportRecursive (name : String) : Spares (reportRecursive env name) := by
  unfold reportRecursive
  refine Spares.bind (cleanly_get fun _ => rfl) fun s => ?_
  split
  · exact cleanly_pure fun _ => rfl
  · refine Spares.bind (cleanly_modify (fun _ => rfl) fun _ => rfl) fun _ => ?_
    split
    · exact cleanly_complain _ _ _
    · exact cleanly_pure fun _ => rfl

variable {env}

theorem spares_underlyingWith {resolve : String → Step Ty} (h : ∀ name, Spares (resolve name)) (t : Ty) :
    Spares (underlyingWith env resolve t) := by
  unfold underlyingWith
  split
  · split
    · exact h _
    · exact cleanly_pure fun _ => rfl
  · exact cleanly_pure fun _ => rfl

theorem spares_resolveNamedWithin (env : Env) (fuel : Nat) : ∀ name, Spares (resolveNamedWithin env fuel name) := by
  induction fuel with
  | zero => exact fun _ => cleanly_pure fun _ => rfl
  | succ fuel ih =>
    intro name
    rw [resolveNamedWithin]
    refine Spares.bind (cleanly_get fun _ => rfl) fun s => ?_
    split
    · exact Spares.bind (cleanly_get fun _ => rfl) fun _ => cleanly_pure fun _ => rfl
    · exact Spares.bind (spares_reportRecursive env name) fun _ => cleanly_pure fun _ => rfl
    · split
      · rename_i file spec _
        have hkeeps := (keeps_resolveType env (env.site file none) spec.type).bind fun t _ =>
          keeps_underlyingWith env (keeps_resolveNamedWithin env fuel) t
        exact Spares.bind (spares_declaring hkeeps _ _) fun _ =>
          Spares.bind (cleanly_modify (fun _ => rfl) fun _ => rfl) fun _ => cleanly_pure fun _ => rfl
      · exact cleanly_pure fun _ => rfl

theorem spares_underlying (env : Env) (t : Ty) : Spares (underlying env t) :=
  spares_underlyingWith (spares_resolveNamedWithin env env.fuel) t

theorem spares_resolveConstWithin (env : Env) (fuel : Nat) (name : String) :
    Spares (resolveConstWithin env fuel name) := by
  cases fuel with
  | zero => exact cleanly_pure fun _ => rfl
  | succ fuel =>
    rw [resolveConstWithin]
    refine Spares.bind (cleanly_get fun _ => rfl) fun s => ?_
    split
    · exact Spares.bind (cleanly_get fun _ => rfl) fun _ => cleanly_pure fun _ => rfl
    · split
      · exact cleanly_complain_pure _ _ _ _
      · exact cleanly_pure fun _ => rfl
    · split
      · rename_i file id type value iota _
        have hkeeps := keeps_constDef (keeps_resolveConstWithin env fuel) (env.site file (some iota)) id type value
        refine Spares.bind (spares_declaring hkeeps _ _) fun d => ?_
        split
        · exact Spares.bind (cleanly_modify (fun _ => rfl) fun _ => rfl) fun _ => cleanly_pure fun _ => rfl
        · exact cleanly_pure fun _ => rfl
      · exact cleanly_pure fun _ => rfl

theorem spares_assignable (env : Env) (tv : TypeAndValue) (target : Ty) : Spares (assignable env tv target) := by
  unfold assignable
  refine Spares.bind (spares_underlying env target) fun under => ?_
  dsimp only
  split
  · split <;> exact cleanly_pure fun _ => rfl
  · split
    · exact cleanly_pure fun _ => rfl
    · split
      · exact cleanly_pure fun _ => rfl
      · exact Spares.bind (spares_underlying env tv.type) fun _ => cleanly_pure fun _ => rfl

theorem spares_assign (env : Env) (site : Site) (tv : TypeAndValue) (target : Ty) (r : ByteRange) (use : Use) :
    Spares (assign env site tv target r use) := by
  unfold assign
  split
  · exact cleanly_pure fun _ => rfl
  · refine Spares.bind (spares_assignable env tv target) fun fit => ?_
    split
    · exact cleanly_pure fun _ => rfl
    · exact cleanly_complain_pure _ _ _ _

theorem spares_literal (site : Site) (t : Token) : Spares (literal site t) := by
  unfold literal
  split
  · exact cleanly_pure fun _ => rfl
  · exact cleanly_complain_pure _ _ _ _

theorem spares_nameExpr {constOf : String → Step (Option ConstDef)} (hc : ∀ name, Spares (constOf name))
    (site : Site)
    (id : Token) : Spares (nameExpr env constOf site id) := by
  unfold nameExpr
  split
  · exact Spares.bind (hc _) fun _ => cleanly_pure fun _ => rfl
  · exact cleanly_pure fun _ => rfl
  · split
    · exact cleanly_pure fun _ => rfl
    · exact cleanly_complain_pure _ _ _ _
  all_goals exact cleanly_complain_pure _ _ _ _

theorem spares_selectorExpr (site : Site) (offset : Nat) (qualifier name : Token) :
    Spares (selectorExpr env site offset qualifier name) := by
  unfold selectorExpr
  dsimp only
  split
  · exact cleanly_pure fun _ => rfl
  · split
    · exact cleanly_complain_pure _ _ _ _
    · split
      · exact cleanly_pure fun _ => rfl
      · split <;> exact cleanly_complain_pure _ _ _ _
  all_goals exact cleanly_complain_pure _ _ _ _

theorem spares_literalBase (env : Env) (t : Ty) (elided : Bool) : Spares (literalBase env t elided) := by
  unfold literalBase
  refine Spares.bind (spares_underlying env t) fun base => ?_
  split
  · split
    · exact Spares.bind (spares_underlying env _) fun _ => cleanly_pure fun _ => rfl
    · exact cleanly_pure fun _ => rfl
  · exact cleanly_pure fun _ => rfl

end

/-! ## Expressions -/

def IsSettled (v : Option TypeAndValue) : Prop := ∀ tv ∈ v, tv.const? ≠ none

section
variable {env : Env} {constOf : String → Step (Option ConstDef)} {site : Site}

theorem settled_none : IsSettled none := by
  rintro _ ⟨⟩

theorem not_settled_value {t : Ty} : ¬ IsSettled (some ⟨.value, t⟩) := fun h => h _ rfl rfl

theorem cleanly_recordValue (env : Env) (file : Nat) (e : Expr) : ∀ v : Option TypeAndValue,
    Cleanly (recordValue e.range v) fun w s t => w = v ∧ Fills env file [.value e] s.table t.table
  | none => cleanly_pure fun s => ⟨rfl, fills_value e s.table⟩
  | some _ => fun _ hs => ⟨hs, rfl, fills_insert trivial⟩

theorem cleanly_resolveType (env : Env) (site : Site) (e : TypeExpr) :
    Cleanly (resolveType env site e) fun _ s t => Fills env site.file e.spots s.table t.table :=
  fun s => (ends_resolveType env site e s).mono fun _ _ ht hclean => ht.2.fills hclean

/-- A sign stands before a constant. -/
theorem cleanly_signedOperand (site : Site) (offset : Nat) (op : Token) (r : ByteRange) (tv : TypeAndValue) :
    Cleanly (signedOperand env site offset op r tv) fun _ s t => t.table = s.table ∧ tv.const? ≠ none := by
  unfold signedOperand
  split
  · rename_i hsigned
    refine cleanly_pure fun _ => ⟨rfl, fun hnone => ?_⟩
    rw [hnone] at hsigned
    cases hsigned
  · exact cleanly_complain_pure _ _ _ _

/-- An operand is entered as it is found. -/
theorem cleanly_operand {x : Step (Option TypeAndValue)} (hx : Spares x) (env : Env) (file : Nat) (e : Expr) :
    Cleanly (x >>= recordValue e.range) fun _ s t => Fills env file [.value e] s.table t.table := by
  refine Cleanly.bind hx (cleanly_recordValue env file e) ?_
  rintro _ _ s t u hspared ⟨-, hfills⟩
  exact hspared ▸ hfills

/-- A literal is a value. -/
theorem cleanly_value {α : Type} {x : Step α} (h : Keeps env x) (t : Ty) :
    Cleanly (x >>= fun _ => pure (some (⟨.value, t⟩ : TypeAndValue))) fun v _ _ => ¬ IsSettled v :=
  Cleanly.bind (R := fun _ v _ _ => ¬ IsSettled v) (cleanly_of_keeps h)
    (fun _ => cleanly_pure fun _ => not_settled_value)
    fun _ _ _ _ _ _ h => h

/-- The braces of a literal are looked into only where it is a value. -/
theorem cleanly_checkBody (hk : ∀ name, Keeps env (constOf name)) (site : Site) (t : Ty) (offset : Nat)
    (elided : Bool) :
    ∀ b : LitBody, Cleanly (checkBody env constOf site t offset elided b)
      fun v s u => IsSettled v → v = none ∧ u.table = s.table := by
  rintro ⟨range, _, elements⟩
  have hvalue {x : Step (Option TypeAndValue)} (hx : Cleanly x fun v _ _ => ¬ IsSettled v) :
      Cleanly x fun v s u => IsSettled v → v = none ∧ u.table = s.table := hx.mono fun _ _ _ h hv => absurd hv h
  rw [checkBody]
  split
  · exact cleanly_pure fun _ _ => ⟨rfl, rfl⟩
  · refine Cleanly.bind (R := fun _ v s u => IsSettled v → v = none ∧ u.table = s.table)
      (spares_literalBase env t elided) (fun base => ?_) fun _ _ _ _ _ h h' hv => ⟨(h' hv).1, (h' hv).2.trans h⟩
    dsimp only
    split
    · split
      · exact cleanly_complain_pure _ _ _ _
      · split
        · exact hvalue (cleanly_value (keeps_checkKeyed hk site _ _ _ elements) t)
        · split
          · refine hvalue (Cleanly.bind (R := fun _ v _ _ => ¬ IsSettled v)
              (cleanly_of_keeps (keeps_checkPositional hk site _ _ elements)) (fun _ => ?_) fun _ _ _ _ _ _ h => h)
            split
            · exact cleanly_complain_pure _ _ _ _
            · exact cleanly_pure fun _ => not_settled_value
          · exact hvalue (cleanly_pure fun _ => not_settled_value)
    · exact hvalue (cleanly_value (keeps_checkSlice hk site _ elements) t)
    · exact hvalue (cleanly_value (keeps_checkMap hk site _ _ _ elements) t)
    · exact cleanly_pure fun _ _ => ⟨rfl, rfl⟩
    · exact cleanly_complain_pure _ _ _ _

/-- What an expression leaves in the table, if it is a constant or nothing. -/
theorem cleanly_checkExpr (hk : ∀ name, Keeps env (constOf name)) (hc : ∀ name, Spares (constOf name)) (site : Site)
    (e : Expr) : Cleanly (checkExpr env constOf site e) fun v s t => IsSettled v →
    Fills env site.file e.spots s.table t.table := by
  cases e with
  | missing =>
    rw [checkExpr]
    exact cleanly_pure fun s _ => fills_nil s.table
  | literal t =>
    rw [checkExpr]
    exact (cleanly_operand (spares_literal site t) env site.file (.literal t)).mono fun _ _ _ h _ => h
  | name id =>
    rw [checkExpr]
    exact (cleanly_operand (spares_nameExpr hc site id) env site.file (.name id)).mono fun _ _ _ h _ => h
  | selector range qualifier id =>
    rw [checkExpr.eq_def]
    dsimp only
    split
    · rename_i qualifier id
      exact (cleanly_operand (spares_selectorExpr site _ qualifier id) env site.file
        (.selector range (some qualifier) (some id))).mono fun _ _ _ h _ => h
    · exact cleanly_pure fun s _ => fills_value _ s.table
  | paren range inner =>
    rw [checkExpr]
    refine Cleanly.bind (cleanly_checkExpr hk hc site inner)
      (fun v => cleanly_recordValue env site.file (.paren range inner) v) ?_
    rintro v _ s t u hinner ⟨rfl, hfills⟩ hsettled
    exact (hinner hsettled).trans hfills
  | unary range op operand =>
    rw [checkExpr]
    refine Cleanly.bind (R := fun v _ t u => IsSettled v ∧
      Fills env site.file [.value (.unary range op operand)] t.table u.table)
      (cleanly_checkExpr hk hc site operand) (fun v => ?_) fun v _ s t u hoperand h _ => (hoperand h.1).trans h.2
    cases v with
    | none => exact cleanly_pure fun s => ⟨settled_none, fills_value _ s.table⟩
    | some tv =>
      refine Cleanly.bind (cleanly_signedOperand site _ op _ tv)
        (fun v => cleanly_recordValue env site.file (.unary range op operand) v) ?_
      rintro _ _ s t u ⟨hspared, hconst⟩ ⟨-, hfills⟩
      refine ⟨?_, hspared ▸ hfills⟩
      rintro _ ⟨⟩
      exact hconst
  | composite range type _ body =>
    rw [checkExpr]
    refine Cleanly.bind (R := fun _ v s u => IsSettled v → u.table = s.table) (cleanly_resolveType env site type)
      (fun t => ?_) fun _ _ s t u htype hbody hsettled => hbody hsettled ▸ htype
    refine Cleanly.bind (R := fun v w s u => w = v ∧ (v = none → u.table = s.table))
      (cleanly_checkBody hk site t _ _ body) (fun v => ?_) ?_
    · cases v with
      | none => exact cleanly_pure fun _ => ⟨rfl, fun _ => rfl⟩
      | some tv => exact fun s hs => ⟨hs, rfl, fun h => absurd h (Option.some_ne_none tv)⟩
    · rintro v _ s t u hbody ⟨rfl, hrecord⟩ hsettled
      obtain ⟨hnone, hspared⟩ := hbody hsettled
      exact (hrecord hnone).trans hspared
  | type t _ =>
    rw [checkExpr]
    refine Cleanly.bind (R := fun _ _ _ _ => False) (cleanly_resolveType env site t)
      (fun _ => cleanly_complain_pure _ _ _ _) ?_
    exact fun _ _ _ _ _ _ h => h.elim

/-- A constant leaves its type and value in the table. -/
theorem cleanly_constDef (hk : ∀ name, Keeps env (constOf name)) (hc : ∀ name, Spares (constOf name)) (site : Site)
    (name : Token) (type : TypeExpr) (value : Expr) :
    Cleanly (constDef env constOf site name type value) fun _ s t =>
      Fills env site.file (type.spots ++ value.spots) s.table t.table := by
  unfold constDef
  refine Cleanly.bind (R := fun _ _ s t => Fills env site.file value.spots s.table t.table)
    (cleanly_resolveType env site type) (fun declared => ?_) fun _ _ _ _ _ h h' => h.trans h'
  split
  · exact cleanly_complain_pure _ _ _ _
  · refine Cleanly.bind (R := fun v _ s t => IsSettled v ∧ t.table = s.table) (cleanly_checkExpr hk hc site value)
      (fun v => ?_)
      fun v _ _ _ _ h h' => h'.2 ▸ h h'.1
    cases v with
    | none => exact cleanly_pure fun _ => ⟨settled_none, rfl⟩
    | some tv =>
      dsimp only
      split
      · exact cleanly_complain_pure _ _ _ _
      · rename_i constant hconst
        have hsettled : IsSettled (some tv) := by
          rintro _ ⟨⟩
          rw [hconst]
          exact nofun
        have hspares {x : Step (Option ConstDef)} (hx : Spares x) : Cleanly x fun _ s t => IsSettled (some tv) ∧
            t.table = s.table :=
          hx.mono fun _ _ _ h => ⟨hsettled, h⟩
        split
        · exact cleanly_pure fun _ => ⟨hsettled, rfl⟩
        · split
          · exact cleanly_pure fun _ => ⟨hsettled, rfl⟩
          · refine hspares (Spares.bind (spares_underlying env declared) fun under => ?_)
            split
            · exact cleanly_complain_pure _ _ _ _
            · refine Spares.bind (spares_assign env site tv declared _ _) fun fit => ?_
              split <;> exact cleanly_pure fun _ => rfl

end

end IdlWorkbench.Check
