import IdlWorkbench.Proofs.Check.Denote

/-!
# Invariants along expressions

Checking an expression resolves names and constants of the package; all else that it does is to record, to report
and to put map keys aside. So it keeps an invariant that each of these keeps, where something is known of every
value that is recorded. Along with the invariant goes a condition on the declared types that come up: what resolving
is asked for satisfies it, if what resolving gives does. -/

namespace IdlWorkbench.Check

/-! ## What comes up -/

def Mentions (N : NamedRef → Prop) (t : Ty) : Prop := ∀ r ∈ t.refs, N r

section
variable {N : NamedRef → Prop}

theorem mentions_of_refs_nil {t : Ty} (h : t.refs = []) : Mentions N t := by
  rw [Mentions, h]
  exact nofun

@[simp] theorem mentions_invalid : Mentions N .invalid := mentions_of_refs_nil rfl

@[simp] theorem mentions_basic {k : BasicKind} : Mentions N (.basic k) := mentions_of_refs_nil rfl

@[simp] theorem mentions_named {r : NamedRef} : Mentions N (.named r) ↔ N r := by simp [Mentions, Ty.refs]

@[simp] theorem mentions_slice {t : Ty} : Mentions N (.slice t) ↔ Mentions N t := Iff.rfl

@[simp] theorem mentions_pointer {t : Ty} : Mentions N (.pointer t) ↔ Mentions N t := Iff.rfl

@[simp] theorem mentions_chan {t : Ty} : Mentions N (.chan t) ↔ Mentions N t := Iff.rfl

@[simp] theorem mentions_map {k v : Ty} : Mentions N (.map k v) ↔ Mentions N k ∧ Mentions N v := by
  simp [Mentions, Ty.refs, or_imp, forall_and]

theorem mentions_field {fs : List FieldTy} (h : Mentions N (.struct fs)) {f : FieldTy}
    (hf : f ∈ fs) : Mentions N f.type := by
  intro r hr
  refine h r ?_
  rw [Ty.refs, refsFields_eq]
  exact List.mem_flatMap.mpr ⟨f, hf, hr⟩

theorem mentions_fieldsOf {t : Ty} (h : Mentions N t) (f : Field) : ∀ r ∈ Ty.refsFields (fieldsOf f t), N r := by
  have hall : ∀ g ∈ fieldsOf f t, g.type = t := by
    unfold fieldsOf
    dsimp only
    split
    · intro g hg
      obtain ⟨name, -, rfl⟩ := Option.map_eq_some_iff.mp (Option.mem_toList.mp hg)
      rfl
    · intro g hg
      obtain ⟨name, -, rfl⟩ := List.mem_map.mp hg
      rfl
  intro r hr
  rw [refsFields_eq] at hr
  obtain ⟨g, hg, hr⟩ := List.mem_flatMap.mp hr
  exact h r (hall g hg ▸ hr)

theorem constant_of_const? {tv : TypeAndValue} {value : ConstValue} (h : tv.const? = some value) :
    tv = ⟨.constant value, tv.type⟩ := by
  obtain ⟨mode, type⟩ := tv
  cases mode <;> cases h
  rfl

end

/-! ## Invariants -/

/-- A step that keeps `I`, and whose answer satisfies `Q`. -/
def Upholds {α : Type} (I : State → Prop) (Q : α → Prop) (x : Step α) : Prop :=
  ∀ s, I s → Ends x s fun a t => I t ∧ Q a

/-- An invariant that recording a value keeps if `V` is known of the value, which holds of all that come up. -/
structure Tracks (env : Env) (I : State → Prop) (N : NamedRef → Prop) (V : TypeAndValue → Prop) : Prop where
  complain : ∀ (site : Site) (offset : Nat) {cause : TypeError}, cause.isPassing = true →
    Upholds I (fun _ => True) (complain site offset cause)
  record : ∀ (r : ByteRange) {tv : TypeAndValue}, V tv → Upholds I (fun _ => True) (record r tv)
  resolveType : ∀ (site : Site) (e : TypeExpr), Upholds I (Mentions N) (resolveType env site e)
  underlying : ∀ t, Mentions N t → Upholds I (Mentions N) (underlying env t)
  mentions : ∀ {tv : TypeAndValue}, V tv → Mentions N tv.type
  value : ∀ {t : Ty}, Mentions N t → V ⟨.value, t⟩
  literal : ∀ {t : Token} {value : ConstValue}, literalValue? t = some value →
    V ⟨.constant value, .basic value.untypedKind⟩
  const : ∀ {file : Nat} {name : String} {d : ConstDef}, env.lookup file name = some (.const d) → V d.toTypeAndValue
  member : ∀ {file : Nat} {qualifier name : String} {s : Surface} {d : ConstDef},
    env.lookup file qualifier = some (.package (some s)) → s.consts.find? name = some d → V d.toTypeAndValue
  signed : ∀ {op : Token} {value value' : ConstValue} {t : Ty}, V ⟨.constant value, t⟩ →
    signed? op value = some value' →
    V ⟨.constant value', t⟩

/-- What is known of the constants of the package, and of `iota` in some place. -/
structure Supplies (I : State → Prop) (V : TypeAndValue → Prop) (constOf : String → Step (Option ConstDef))
    (site : Site) : Prop where
  const : ∀ name, Upholds I (fun d => ∀ c ∈ d, V c.toTypeAndValue) (constOf name)
  iota : ∀ n, site.iota = some n → V ⟨.constant (.int n), .basic .untypedInt⟩

section
variable {I : State → Prop} {α β : Type} {Q : α → Prop}

theorem upholds_pure {a : α} (h : Q a) : Upholds I Q (pure a) := fun _ hs => ⟨hs, h⟩

theorem Upholds.bind {R : β → Prop} {x : Step α} {f : α → Step β} (hx : Upholds I Q x)
    (hf : ∀ a, Q a → Upholds I R (f a)) : Upholds I R (x >>= f) := by
  intro s hs
  rw [ends_bind]
  exact (hx s hs).mono fun a t ht => hf a ht.2 t ht.1

theorem Upholds.mono {R : α → Prop} {x : Step α} (hx : Upholds I Q x) (h : ∀ a, Q a → R a) : Upholds I R x :=
  fun s hs => (hx s hs).mono fun a _ ht => ⟨ht.1, h a ht.2⟩

theorem upholds_get : Upholds I (fun _ => True) (get : Step State) := fun _ hs => ⟨hs, trivial⟩

theorem upholds_modify {f : State → State} (h : ∀ s, I s → I (f s)) :
    Upholds I (fun _ => True) (modify f : Step PUnit) :=
  fun s hs => ⟨h s hs, trivial⟩

/-- A loop keeps what every turn keeps, of the state and of the value that is handed on. -/
theorem Upholds.loop {J : β → Prop} {f : α → β → Step (ForInStep β)}
    (hf : ∀ a b, J b → Upholds I (fun r => J r.value) (f a b)) : ∀ (as : List α) {b : β}, J b →
    Upholds I J (forIn as b f)
  | [], _, hb => upholds_pure hb
  | a :: as, b, hb => by
    rw [List.forIn_cons]
    refine (hf a b hb).bind fun r hr => ?_
    cases r with
    | done b => exact upholds_pure hr
    | yield b => exact Upholds.loop hf as hr

theorem Upholds.forIn {f : α → β → Step (ForInStep β)} (hf : ∀ a b, Upholds I (fun _ => True) (f a b))
    (as : List α) (b : β) :
    Upholds I (fun _ => True) (forIn as b f) :=
  Upholds.loop (fun a b _ => hf a b) as trivial

theorem Upholds.filterMapM {P : β → Prop} {f : α → Step (Option β)}
    (hf : ∀ a, Upholds I (fun r => ∀ b ∈ r, P b) (f a)) :
    ∀ as : List α, Upholds I (fun bs => ∀ b ∈ bs, P b) (as.filterMapM f)
  | [] => upholds_pure nofun
  | a :: as => by
    rw [List.filterMapM_cons]
    refine (hf a).bind fun r hr => ?_
    cases r with
    | none => exact Upholds.filterMapM hf as
    | some b =>
      exact (Upholds.filterMapM hf as).bind fun _ hbs => upholds_pure (List.forall_mem_cons.mpr ⟨hr b rfl, hbs⟩)

/-- A table of its own is begun empty, and the one before it comes back behind it. -/
theorem Upholds.withTable {T : TypeTable → Prop} {x : Step α} (hx : Upholds I Q x)
    (hempty : ∀ s, I s → I { s with table := [] })
    (hback : ∀ s t, I s → I t → I { t with table := s.table }) (htable : ∀ t, I t → T t.table) :
    Upholds I (fun r => Q r.1 ∧ T r.2) (withTable x) := by
  intro s hs
  unfold Check.withTable
  rw [ends_bind, ends_get, ends_bind, ends_modify, ends_bind]
  exact (hx _ (hempty s hs)).mono fun a t ht => ⟨hback s t hs ht.1, ht.2, htable t ht.1⟩

end

section
variable {env : Env} {I : State → Prop} {N : NamedRef → Prop} {V : TypeAndValue → Prop} {α : Type} {Q : α → Prop}
  (h : Tracks env I N V)
include h

theorem Tracks.complain_pure {a : α} (site : Site) (offset : Nat) {cause : TypeError}
    (hpass : cause.isPassing = true)
    (ha : Q a) : Upholds I Q (Check.complain site offset cause >>= fun _ => pure a) :=
  (h.complain site offset hpass).bind fun _ _ => upholds_pure ha

theorem Tracks.recordValue (r : ByteRange) : ∀ {v : Option TypeAndValue},
    (∀ tv ∈ v, V tv) → Upholds I (fun v => ∀ tv ∈ v, V tv) (recordValue r v)
  | none, hv => upholds_pure hv
  | some tv, hv => (h.record r (hv tv rfl)).bind fun _ _ => upholds_pure hv

end

/-! ## Operands -/

section
variable {env : Env} {I : State → Prop} {N : NamedRef → Prop} {V : TypeAndValue → Prop}

theorem known_none {tv : TypeAndValue} (h : tv ∈ (none : Option TypeAndValue)) : V tv := by cases h

theorem known_some {tv : TypeAndValue} (h : V tv) : ∀ tv' ∈ some tv, V tv' := by
  rintro _ ⟨⟩
  exact h

variable (h : Tracks env I N V)
include h

theorem Tracks.assignable {tv : TypeAndValue} {target : Ty} (htv : Mentions N tv.type) (ht : Mentions N target) :
    Upholds I (fun _ => True) (assignable env tv target) := by
  unfold Check.assignable
  refine (h.underlying target ht).bind fun under _ => ?_
  split
  · split <;> exact upholds_pure trivial
  · split
    · exact upholds_pure trivial
    · split
      · exact upholds_pure trivial
      · exact (h.underlying tv.type htv).bind fun _ _ => upholds_pure trivial

theorem Tracks.assign (site : Site) {tv : TypeAndValue} {target : Ty} (r : ByteRange) (use : Use)
    (htv : Mentions N tv.type)
    (ht : Mentions N target) : Upholds I (fun _ => True) (assign env site tv target r use) := by
  unfold Check.assign
  split
  · exact upholds_pure trivial
  · refine (h.assignable htv ht).bind fun fit _ => ?_
    split
    · exact upholds_pure trivial
    · exact h.complain_pure _ _ rfl trivial

theorem Tracks.literalExpr (site : Site) (t : Token) :
    Upholds I (fun v => ∀ tv ∈ v, V tv) (Check.literal site t) := by
  unfold Check.literal
  split
  · rename_i hvalue
    exact upholds_pure (known_some (h.literal hvalue))
  · exact h.complain_pure _ _ rfl fun _ => known_none

theorem Tracks.nameExpr {constOf : String → Step (Option ConstDef)} {site : Site} (hs : Supplies I V constOf site)
    (id : Token) :
    Upholds I (fun v => ∀ tv ∈ v, V tv) (nameExpr env constOf site id) := by
  unfold Check.nameExpr
  cases hb : env.lookup site.file id.text with
  | none => exact h.complain_pure _ _ rfl fun _ => known_none
  | some b =>
    cases b with
    | localConst =>
      refine (hs.const _).bind fun d hd => upholds_pure ?_
      cases d with
      | none => exact fun _ => known_none
      | some c => exact known_some (hd c rfl)
    | const d => exact upholds_pure (known_some (h.const hb))
    | iota =>
      dsimp only
      split
      · exact upholds_pure (known_some (hs.iota _ ‹_›))
      · exact h.complain_pure _ _ rfl fun _ => known_none
    | type _ | localType | package _ => exact h.complain_pure _ _ rfl fun _ => known_none

theorem Tracks.selectorExpr (site : Site) (offset : Nat) (qualifier name : Token) :
    Upholds I (fun v => ∀ tv ∈ v, V tv) (selectorExpr env site offset qualifier name) := by
  unfold Check.selectorExpr
  dsimp only
  cases hb : env.lookup site.file qualifier.text with
  | none => exact h.complain_pure _ _ rfl fun _ => known_none
  | some b =>
    cases b with
    | package p =>
      cases p with
      | none => exact upholds_pure fun _ => known_none
      | some s =>
        dsimp only
        split
        · exact h.complain_pure _ _ rfl fun _ => known_none
        · split
          · rename_i hd
            exact upholds_pure (known_some (h.member hb hd))
          · split <;> exact h.complain_pure _ _ rfl fun _ => known_none
    | type _ | localType | localConst | const _ | iota => exact h.complain_pure _ _ rfl fun _ => known_none

theorem Tracks.signedOperand (site : Site) (offset : Nat) (op : Token) (r : ByteRange) {tv : TypeAndValue}
    (htv : V tv) :
    Upholds I (fun v => ∀ tv ∈ v, V tv) (signedOperand env site offset op r tv) := by
  unfold Check.signedOperand
  split
  · rename_i value' hsigned
    obtain ⟨value, hvalue, hsigned⟩ := Option.bind_eq_some_iff.mp hsigned
    rw [constant_of_const? hvalue] at htv
    exact upholds_pure (known_some (h.signed htv hsigned))
  · exact h.complain_pure _ _ rfl fun _ => known_none

theorem Tracks.literalBase {t : Ty} (elided : Bool) (ht : Mentions N t) :
    Upholds I (fun r => Mentions N r.2) (literalBase env t elided) := by
  unfold Check.literalBase
  refine (h.underlying t ht).bind fun base hbase => ?_
  split
  · split
    · exact (h.underlying _ (mentions_pointer.mp hbase)).bind fun _ hunder => upholds_pure hunder
    · exact upholds_pure hbase
  · exact upholds_pure hbase

end

/-! ## Expressions -/

section
variable {env : Env} {I : State → Prop} {N : NamedRef → Prop} {V : TypeAndValue → Prop}
    {constOf : String → Step (Option ConstDef)}
  {site : Site}

mutual

theorem Tracks.checkExpr (h : Tracks env I N V) (hs : Supplies I V constOf site) :
    ∀ e : Expr, Upholds I (fun v => ∀ tv ∈ v, V tv) (checkExpr env constOf site e)
  | .missing => by
    rw [Check.checkExpr]
    exact upholds_pure fun _ => known_none
  | .literal t => by
    rw [Check.checkExpr]
    exact (h.literalExpr site t).bind fun _ hv => h.recordValue _ hv
  | .name id => by
    rw [Check.checkExpr]
    exact (h.nameExpr hs id).bind fun _ hv => h.recordValue _ hv
  | .selector range qualifier name => by
    rw [Check.checkExpr.eq_def]
    dsimp only
    split
    · exact (h.selectorExpr site _ _ _).bind fun _ hv => h.recordValue _ hv
    · exact upholds_pure fun _ => known_none
  | .paren range inner => by
    rw [Check.checkExpr]
    exact (h.checkExpr hs inner).bind fun _ hv => h.recordValue _ hv
  | .unary range op operand => by
    rw [Check.checkExpr]
    refine (h.checkExpr hs operand).bind fun v hv => ?_
    cases v with
    | none => exact upholds_pure fun _ => known_none
    | some tv => exact (h.signedOperand site _ _ _ (hv tv rfl)).bind fun _ hw => h.recordValue _ hw
  | .composite range type _ body => by
    rw [Check.checkExpr]
    exact (h.resolveType site type).bind fun t ht => (h.checkBody hs ht _ _ body).bind fun _ hv => h.recordValue _ hv
  | .type t _ => by
    rw [Check.checkExpr]
    exact (h.resolveType site t).bind fun _ _ => h.complain_pure _ _ rfl fun _ => known_none

theorem Tracks.checkBody (h : Tracks env I N V) (hs : Supplies I V constOf site)
    {t : Ty} (ht : Mentions N t) (offset : Nat) (elided : Bool) :
    ∀ b : LitBody, Upholds I (fun v => ∀ tv ∈ v, V tv) (checkBody env constOf site t offset elided b)
  | ⟨range, _, elements⟩ => by
    have hvalue : ∀ tv ∈ some (⟨.value, t⟩ : TypeAndValue), V tv := known_some (h.value ht)
    rw [Check.checkBody]
    split
    · exact upholds_pure fun _ => known_none
    · refine (h.literalBase elided ht).bind fun base hbase => ?_
      obtain ⟨baseType, base⟩ := base
      dsimp only at hbase ⊢
      split
      · split
        · exact h.complain_pure _ _ rfl hvalue
        · split
          · exact (h.checkKeyed hs hbase _ _ elements).bind fun _ _ => upholds_pure hvalue
          · split
            · refine (h.checkPositional hs _ (fun f hf => mentions_field hbase hf) elements).bind fun _ _ => ?_
              split
              · exact h.complain_pure _ _ rfl hvalue
              · exact upholds_pure hvalue
            · exact upholds_pure hvalue
      · exact (h.checkSlice hs (mentions_slice.mp hbase) elements).bind fun _ _ => upholds_pure hvalue
      · obtain ⟨hk, hv⟩ := mentions_map.mp hbase
        exact (h.checkMap hs hk hv _ elements).bind fun _ _ => upholds_pure hvalue
      · exact upholds_pure fun _ => known_none
      · exact h.complain_pure _ _ rfl fun _ => known_none

theorem Tracks.checkKeyed (h : Tracks env I N V) (hs : Supplies I V constOf site)
    {fields : List FieldTy} (hfields : Mentions N (.struct fields)) (type : String) (seen : List String) :
    ∀ es : List Element, Upholds I (fun _ => True) (checkKeyed env constOf site fields type seen es)
  | [] => by
    rw [Check.checkKeyed]
    exact upholds_pure trivial
  | .positional _ _ :: rest => by
    rw [Check.checkKeyed]
    exact h.checkKeyed hs hfields type seen rest
  | .keyed _ key value :: rest => by
    rw [Check.checkKeyed.eq_def]
    dsimp only
    split
    · exact h.checkKeyed hs hfields type seen rest
    · split
      · exact (h.complain _ _ rfl).bind fun _ _ => h.checkKeyed hs hfields type seen rest
      · rename_i field hfield
        split
        · exact (h.complain _ _ rfl).bind fun _ _ => h.checkKeyed hs hfields type seen rest
        · exact (h.checkValue hs (mentions_field hfields (List.mem_of_find?_eq_some hfield)) _ value).bind fun _ _ =>
            h.checkKeyed hs hfields type _ rest
    · exact (h.complain _ _ rfl).bind fun _ _ => h.checkKeyed hs hfields type seen rest

theorem Tracks.checkPositional (h : Tracks env I N V) (hs : Supplies I V constOf site)
    (type : String) : ∀ {fields : List FieldTy} (_ : ∀ f ∈ fields, Mentions N f.type) (es : List Element),
    Upholds I (fun _ => True) (checkPositional env constOf site type fields es)
  | _, _, [] => by
    rw [Check.checkPositional]
    exact upholds_pure trivial
  | fields, hfields, .keyed _ _ _ :: rest => by
    rw [Check.checkPositional]
    exact h.checkPositional hs type (fun f hf => hfields f (List.mem_of_mem_drop hf)) rest
  | [], _, .positional range _ :: _ => by
    rw [Check.checkPositional]
    exact h.complain _ _ rfl
  | field :: fields, hfields, .positional _ value :: rest => by
    rw [Check.checkPositional]
    exact (h.checkValue hs (hfields field List.mem_cons_self) _ value).bind fun _ _ =>
      h.checkPositional hs type (fun f hf => hfields f (List.mem_cons_of_mem _ hf)) rest

theorem Tracks.checkSlice (h : Tracks env I N V) (hs : Supplies I V constOf site)
    {elem : Ty} (helem : Mentions N elem) :
    ∀ es : List Element, Upholds I (fun _ => True) (checkSlice env constOf site elem es)
  | [] => by
    rw [Check.checkSlice]
    exact upholds_pure trivial
  | .positional _ value :: rest => by
    rw [Check.checkSlice]
    exact (h.checkValue hs helem _ value).bind fun _ _ => h.checkSlice hs helem rest
  | .keyed _ (.expr index) value :: rest => by
    have hrest := (h.checkValue hs helem .sliceLit value).bind fun _ _ => h.checkSlice hs helem rest
    rw [Check.checkSlice]
    refine (h.checkExpr hs index).bind fun v _ => ?_
    split
    · exact (h.complain _ _ rfl).bind fun _ _ => hrest
    · exact hrest
  | .keyed _ .missing value :: rest => by
    rw [Check.checkSlice.eq_def]
    exact (h.checkValue hs helem _ value).bind fun _ _ => h.checkSlice hs helem rest
  | .keyed _ (.body _) value :: rest => by
    rw [Check.checkSlice.eq_def]
    exact (h.checkValue hs helem _ value).bind fun _ _ => h.checkSlice hs helem rest

theorem Tracks.checkMap (h : Tracks env I N V) (hs : Supplies I V constOf site)
    {key value : Ty} (hkey : Mentions N key) (hvalue : Mentions N value) (seen : List String) :
    ∀ es : List Element, Upholds I (fun _ => True) (checkMap env constOf site key value seen es)
  | [] => by
    rw [Check.checkMap]
    exact upholds_pure trivial
  | .positional _ _ :: rest => by
    rw [Check.checkMap]
    exact (h.complain _ _ rfl).bind fun _ _ => h.checkMap hs hkey hvalue seen rest
  | .keyed _ k v :: rest => by
    have hrest (seen : List String) := (h.checkValue hs hvalue .mapLit v).bind fun _ _ =>
      h.checkMap hs hkey hvalue seen rest
    rw [Check.checkMap]
    refine (h.checkValue hs hkey _ k).bind fun tv _ => ?_
    split
    · exact hrest seen
    · split
      · exact (h.complain _ _ rfl).bind fun _ _ => hrest _
      · exact hrest _

theorem Tracks.checkValue (h : Tracks env I N V) (hs : Supplies I V constOf site)
    {target : Ty} (ht : Mentions N target) (use : Use) :
    ∀ v : ElementValue, Upholds I (fun _ => True) (checkValue env constOf site target use v)
  | .missing => by
    rw [Check.checkValue]
    exact upholds_pure trivial
  | .body b => by
    rw [Check.checkValue]
    exact (h.checkBody hs ht _ _ b).bind fun _ hv => (h.recordValue _ hv).mono fun _ _ => trivial
  | .expr e => by
    rw [Check.checkValue]
    refine (h.checkExpr hs e).bind fun v hv => ?_
    cases v with
    | none => exact upholds_pure trivial
    | some tv => exact (h.assign site _ use (h.mentions (hv tv rfl)) ht).bind fun _ _ => upholds_pure trivial

end

end

/-! ## Constants -/

section
variable {env : Env} {I : State → Prop} {N : NamedRef → Prop} {V : TypeAndValue → Prop}
    {constOf : String → Step (Option ConstDef)}
  {site : Site} {T : Ty → Prop} {C : ConstDef → Prop}

/-- What is known of a constant with the type of its value, and of one with the type that is declared, is known of
those that are defined. -/
theorem Tracks.constDef (h : Tracks env I N V) (hs : Supplies I V constOf site)
    (htype : ∀ e, Upholds I (fun t => Mentions N t ∧ T t) (Check.resolveType env site e))
    (hown : ∀ tv value, V tv → tv.const? = some value → C ⟨tv.type, value⟩) (hdeclared : ∀ t value, T t →
      C ⟨t, value⟩)
    (name : Token) (type : TypeExpr) (value : Expr) :
    Upholds I (fun d => ∀ c ∈ d, C c) (constDef env constOf site name type value) := by
  have hnone : ∀ c ∈ (none : Option ConstDef), C c := nofun
  unfold Check.constDef
  refine (htype type).bind fun declared ⟨hmentions, hT⟩ => ?_
  split
  · exact h.complain_pure _ _ rfl hnone
  · refine (h.checkExpr hs value).bind fun v hv => ?_
    cases v with
    | none => exact upholds_pure hnone
    | some tv =>
      have htv := hv tv rfl
      dsimp only
      split
      · exact h.complain_pure _ _ rfl hnone
      · rename_i constant hconstant
        split
        · refine upholds_pure ?_
          rintro _ ⟨⟩
          exact hown tv constant htv hconstant
        · split
          · exact upholds_pure hnone
          · refine (h.underlying declared hmentions).bind fun under _ => ?_
            split
            · exact h.complain_pure _ _ rfl hnone
            · refine (h.assign site _ _ (h.mentions htv) hmentions).bind fun fit _ => ?_
              split
              · refine upholds_pure ?_
                rintro _ ⟨⟩
                exact hdeclared declared _ hT
              · exact upholds_pure hnone

end

end IdlWorkbench.Check
