import IdlWorkbench.Proofs.Check.Closed
import IdlWorkbench.Proofs.Check.Recursion
import IdlWorkbench.Proofs.Typing.Const

/-!
# Constants stay in the range of their types

The value of a constant has the kind of its type on every way that the constant can come by them: by a literal, by
other constants, by signs and by conversion. Where a type is given to a value without one, the value must lie in the
range of that type. A sign is put before a constant that has a type already with no look at the range, so that what
is below holds for values in range as far as no minus stands before such a constant.

What is known of an integer of some kind is `W` here: that it is in range, or nothing.
-/

namespace IdlWorkbench

namespace ConstValue

/-- The value is a truth value, an integer, a number or a text as the kind asks for. -/
def HasKind (kind : BasicKind) : ConstValue → Prop
  | bool _ => kind.isBool = true
  | int _ => kind.isInteger = true
  | float _ => kind.isFloat = true
  | string _ => kind.isString = true

section
variable {kind : BasicKind} {value : ConstValue} {n : Int}

theorem intFits_iff : intFits kind n = .ok () ↔
    ∀ least greatest, kind.intRange = some (least, greatest) → least ≤ n ∧ n ≤ greatest := by
  unfold intFits
  cases kind.intRange with
  | none => simp
  | some range =>
    obtain ⟨least, greatest⟩ := range
    dsimp only
    split
    · rename_i hout
      refine iff_of_false nofun fun h => ?_
      obtain ⟨hl, hg⟩ := h least greatest rfl
      omega
    · rename_i hin
      refine iff_of_true rfl ?_
      rintro _ _ ⟨⟩
      omega

theorem intFits_of_isUntyped (h : kind.isUntyped = true) : intFits kind n = .ok () := by
  have hnone : kind.intRange = none := by cases kind <;> first | rfl | cases h
  rw [intFits, hnone]

/-- A value that has the kind already is not changed. -/
theorem convert_of_hasKind (h : value.HasKind kind) : value.convert kind = value := by
  cases value with
  | bool b => rfl
  | string s => rfl
  | int n =>
    have hnot : kind.isFloat = false := by cases kind <;> first | rfl | cases h
    simp [convert, hnot]
  | float x =>
    have hnot : kind.isInteger = false := by cases kind <;> first | rfl | cases h
    simp [convert, hnot]

/-- A value without a type takes on the kind that it fits, and is in its range. -/
theorem convert_of_fits (h : value.fits kind = .ok ()) :
    (value.convert kind).HasKind kind ∧ ∀ n, value.convert kind = .int n → intFits kind n = .ok () := by
  cases value with
  | bool b =>
    rw [fits] at h
    split at h
    · refine ⟨‹_›, ?_⟩
      rintro _ ⟨⟩
    · cases h
  | string s =>
    rw [fits] at h
    split at h
    · refine ⟨‹_›, ?_⟩
      rintro _ ⟨⟩
    · cases h
  | int n =>
    rw [fits] at h
    split at h
    · rename_i hint
      have hkind : (int n).HasKind kind := hint
      rw [convert_of_hasKind hkind]
      refine ⟨hkind, ?_⟩
      rintro _ ⟨⟩
      exact h
    · split at h
      · rename_i hfloat
        simp only [convert, hfloat, ite_true]
        refine ⟨hfloat, ?_⟩
        rintro _ ⟨⟩
      · cases h
  | float x =>
    by_cases hint : kind.isInteger = true
    · obtain ⟨n, -, -, hn, hin⟩ := convert_float_of_fits hint h
      rw [hn]
      refine ⟨hint, ?_⟩
      rintro _ ⟨⟩
      exact hin
    · rw [fits] at h
      split at h
      · rename_i hfloat
        have hkind : (float x).HasKind kind := hfloat
        rw [convert_of_hasKind hkind]
        refine ⟨hkind, ?_⟩
        rintro _ ⟨⟩
      · cases h

end

end ConstValue

open ConstValue

namespace Check

/-! ## Kinds of types -/

/-- The type comes down to a basic one. -/
def Env.Amounts (env : Env) : Ty → BasicKind → Prop
  | .basic k, kind => k = kind
  | .named r, kind =>
    if r.package = env.path then env.Underlies r.name (.basic kind) else env.bare.underlying (.named r) = .basic kind
  | _, _ => False

/-- The value of a constant has the kind of its type, and `W` is known of it if it is an integer. -/
def Env.Fits (env : Env) (W : BasicKind → Int → Prop) (c : ConstDef) : Prop :=
  ∃ kind, env.Amounts c.type kind ∧ c.value.HasKind kind ∧ ∀ n, c.value = .int n → W kind n

section
variable {env : Env} {t u : Ty} {kind kind' : BasicKind}

theorem Env.Amounts.unique (h : env.Amounts t kind) (h' : env.Amounts t kind') : kind = kind' := by
  cases t with
  | basic k => exact Eq.trans (Eq.symm h) h'
  | named r =>
    dsimp only [Env.Amounts] at h h'
    split at h
    · rename_i hown
      rw [if_pos hown] at h'
      cases h.unique h'
      rfl
    · rename_i hforeign
      rw [if_neg hforeign] at h'
      cases h.symm.trans h'
      rfl
  | _ => exact h.elim

theorem Env.Amounts.not_isInvalid (h : env.Amounts t kind) : t.isInvalid = false := by
  cases t with
  | invalid => exact h.elim
  | _ => rfl

/-- A type that comes down to a basic one is the same as no type but itself. -/
theorem Env.Amounts.eq_of_same (h : env.Amounts u kind) (heq : (t == u) = true) : t = u := by
  have hsame : t.same u = true := heq
  cases u with
  | basic k =>
    cases t with
    | basic k' => rw [eq_of_beq (show (k' == k) = true from hsame)]
    | _ => cases hsame
  | named r =>
    cases t with
    | named r' => rw [eq_of_beq (show (r' == r) = true from hsame)]
    | _ => cases hsame
  | _ => exact h.elim

/-- Types that are the same come down to the same kind. -/
theorem Env.Amounts.of_beq (h : env.Amounts t kind) (h' : env.Amounts u kind')
    (heq : (t == u) = true) : kind = kind' := by
  obtain rfl := h'.eq_of_same heq
  exact h.unique h'

end

/-! ## Constants without a type -/

def IsUntyped (t : Ty) : Prop := ∃ kind : BasicKind, t = .basic kind ∧ kind.isUntyped = true

/-- The expression is written in such a way that its value gets no type. -/
inductive Env.Untyped (env : Env) : Nat → Expr → Prop
  | literal {file : Nat} {t : Token} : Untyped env file (.literal t)
  | paren {file : Nat} {range : ByteRange} {e : Expr} : Untyped env file e → Untyped env file (.paren range e)
  | unary {file : Nat} {range : ByteRange} {op : Token} {e : Expr} : Untyped env file e →
  Untyped env file (.unary range op e)
  | iota {file : Nat} {id : Token} : env.lookup file id.text = some .iota → Untyped env file (.name id)
  | const {file : Nat} {id : Token} {d : ConstDef} : env.lookup file id.text = some (.const d) → IsUntyped d.type →
      Untyped env file (.name id)
  | selected {file : Nat} {range : ByteRange} {qualifier name : Token} {s : Surface} {d : ConstDef} :
      env.lookup file qualifier.text = some (.package (some s)) → s.consts.find? name.text = some d →
      IsUntyped d.type →
      Untyped env file (.selector range (some qualifier) (some name))
  | declared {file file' iota : Nat} {id name : Token} {value : Expr} : env.lookup file id.text = some .localConst →
      env.decls.find? id.text = some (.const file' name .missing value iota) → Untyped env file' value →
      Untyped env file (.name id)

end Check

/-- The operands in a constant expression that a minus stands before. -/
def Expr.negated : Expr → List Expr
  | .paren _ inner => inner.negated
  | .unary _ op operand => (if op.kind = .minus then [operand] else []) ++ operand.negated
  | _ => []

namespace Check

/-- What a name means brings only constants with it of which `Q` is known. -/
def Binding.Yields (Q : ConstDef → Prop) : Binding → Prop
  | .const d => Q d
  | .package (some s) => ∀ name d, s.consts.find? name = some d → Q d
  | _ => True

structure Env.Sound (env : Env) (W : BasicKind → Int → Prop) (name : String) (c : ConstDef) : Prop where
  mentions : Mentions env.Declares c.type
  fits : env.Fits W c
  untyped : ∀ file id value iota, env.decls.find? name = some (.const file id .missing value iota) →
    env.Untyped file value → IsUntyped c.type

/-- What is known of the answer to an expression: if it is a constant, it fits its type. -/
def Env.Weighs (env : Env) (W : BasicKind → Int → Prop) (file : Nat) (e : Expr) (v : Option TypeAndValue) : Prop :=
  ∀ tv ∈ v, ∀ value, tv.const? = some value → env.Fits W ⟨tv.type, value⟩ ∧ (env.Untyped file e → IsUntyped tv.type)

theorem Upholds.and {α : Type} {I : State → Prop} {Q R : α → Prop} {x : Step α} (hx : Upholds I Q x)
    (hy : Upholds I R x) :
    Upholds I (fun a => Q a ∧ R a) x := fun s hs => ⟨(hx s hs).1, (hx s hs).2, (hy s hs).2⟩

/-- What is known of an answer in every state. -/
theorem Upholds.answers {α : Type} {I : State → Prop} {Q R : α → Prop} {x : Step α} (hx : Upholds I Q x)
    (hy : Upholds (fun _ => True) R x) : Upholds I R x := fun s hs => ⟨(hx s hs).1, (hy s trivial).2⟩

section
variable {env : Env} {W : BasicKind → Int → Prop} {kept : String → Prop} {P : Prop}

theorem upholds_any {α : Type} {x : Step α} : Upholds (fun _ => True) (fun _ => True) x :=
  fun _ _ => ⟨trivial, trivial⟩

theorem weighs_none {file : Nat} {e : Expr} : env.Weighs W file e none := nofun

theorem weighs_some {file : Nat} {e : Expr} {c : ConstDef} (h : env.Fits W c)
    (hu : env.Untyped file e → IsUntyped c.type) :
    env.Weighs W file e (some c.toTypeAndValue) := by
  rintro _ ⟨⟩ _ ⟨⟩
  exact ⟨h, hu⟩

theorem weighs_value {file : Nat} {e : Expr} {t : Ty} : env.Weighs W file e (some ⟨.value, t⟩) := by
  rintro _ ⟨⟩ _ ⟨⟩

/-- What underlies a type tells what it comes down to. -/
theorem Env.Sealed.upholds_underlying {D : String → ConstDef → Prop} (hsealed : env.Sealed) {t : Ty}
    (ht : Mentions env.Declares t) :
    Upholds (Linked env D [] kept P) (fun u => ∀ kind, u = .basic kind ↔ env.Amounts t kind) (underlying env t) := by
  intro s hs
  cases t with
  | named r =>
    unfold underlying underlyingWith Env.Amounts
    dsimp only
    split
    · rename_i hown
      refine (hsealed.ends_resolveNamed (mentions_named.mp ht hown) hs).mono fun u v hv => ⟨hv.1, fun kind => ?_⟩
      rcases hv.2.1 with hunder | ⟨hloops, rfl, -⟩
      · exact ⟨fun h => h ▸ hunder, fun h => hunder.unique h⟩
      · exact iff_of_false nofun fun h => h.not_loops hloops
    · exact ⟨hs, fun kind => Iff.rfl⟩
  | basic k => exact ⟨hs, fun kind => ⟨Ty.basic.inj, congrArg Ty.basic⟩⟩
  | _ => exact ⟨hs, fun kind => iff_of_false nofun id⟩

/-! ## Operands -/

section
variable (hrange : ∀ kind n, ConstValue.intFits kind n = .ok () → W kind n)
include hrange

theorem fits_of_isUntyped {kind : BasicKind} {value : ConstValue} (hkind : value.HasKind kind)
    (h : kind.isUntyped = true) :
    env.Fits W ⟨.basic kind, value⟩ :=
  ⟨kind, rfl, hkind, fun n _ => hrange kind n (intFits_of_isUntyped h)⟩

theorem fits_untypedKind (value : ConstValue) : env.Fits W ⟨.basic value.untypedKind, value⟩ ∧
    IsUntyped (.basic value.untypedKind) := by
  have hkind : value.HasKind value.untypedKind := by cases value <;> rfl
  have huntyped : value.untypedKind.isUntyped = true := by cases value <;> rfl
  exact ⟨fits_of_isUntyped hrange hkind huntyped, _, rfl, huntyped⟩

/-- A sign keeps the kind of a value, and a minus what is known of it, as far as the operand allows. -/
theorem fits_signed {op : Token} {t : Ty} {value value' : ConstValue} (h : env.Fits W ⟨t, value⟩)
    (hsigned : signed? op value = some value')
    (hminus : op.kind = .minus → (∀ kind n, W kind n → W kind (-n)) ∨ IsUntyped t) : env.Fits W ⟨t, value'⟩ := by
  obtain ⟨kind, hamounts, hkind, hW⟩ := h
  refine ⟨kind, hamounts, ?_⟩
  cases value with
  | bool b => cases hsigned
  | string s => cases hsigned
  | float x =>
    rw [signed?] at hsigned
    split at hsigned
    · cases hsigned
      exact ⟨hkind, nofun⟩
    · split at hsigned
      · cases hsigned
        exact ⟨hkind, nofun⟩
      · cases hsigned
  | int n =>
    rw [signed?] at hsigned
    split at hsigned
    · rename_i hop
      cases hsigned
      refine ⟨hkind, ?_⟩
      rintro _ ⟨⟩
      rcases hminus hop with hneg | ⟨k, rfl, huntyped⟩
      · exact hneg kind n (hW n rfl)
      · obtain rfl : k = kind := hamounts
        exact hrange k (-n) (intFits_of_isUntyped huntyped)
    · split at hsigned
      · cases hsigned
        exact ⟨hkind, hW⟩
      · cases hsigned

/-! ## Assignment -/

/-- What can be assigned to a basic type has its kind then. -/
theorem Env.Sealed.upholds_assignable {D : String → ConstDef → Prop} (hsealed : env.Sealed) {tv : TypeAndValue}
    {target : Ty}
    {value : ConstValue} {kind : BasicKind} (hvalue : tv.const? = some value) (hfits : env.Fits W ⟨tv.type, value⟩)
    (htv : Mentions env.Declares tv.type) (ht : Mentions env.Declares target) (hkind : env.Amounts target kind) :
    Upholds (Linked env D [] kept P) (fun fit => fit = .ok () → env.Fits W ⟨target, value.convert kind⟩)
      (assignable env tv target) := by
  obtain ⟨own, hown, hvalueKind, hW⟩ := hfits
  -- a value that has a type keeps it, and both come down to the same kind
  have htyped (heq : own = kind) : env.Fits W ⟨target, value.convert kind⟩ := by
    subst heq
    rw [convert_of_hasKind hvalueKind]
    exact ⟨own, hkind, hvalueKind, hW⟩
  unfold assignable
  refine (hsealed.upholds_underlying ht).bind fun under hunder => ?_
  obtain rfl : under = .basic kind := (hunder kind).mpr hkind
  rw [hvalue]
  dsimp only
  split
  · rename_i value' _ heq _
    cases heq
    refine upholds_pure fun hfit => ?_
    obtain ⟨hconverted, hin⟩ := convert_of_fits hfit
    exact ⟨kind, hkind, hconverted, fun n hn => hrange kind n (hin n hn)⟩
  · split
    · rename_i hsame
      exact upholds_pure fun _ => htyped (hown.of_beq hkind hsame)
    · split
      · exact upholds_pure nofun
      · refine (hsealed.upholds_underlying htv).bind fun u hu => upholds_pure fun hfit => ?_
        obtain rfl : u = .basic own := (hu own).mpr hown
        have hsame : (Ty.basic own == Ty.basic kind) = true := by
          by_contra hne
          simp [hne, Ty.isAny] at hfit
        exact htyped ((show env.Amounts (.basic own) own from rfl).of_beq
          (show env.Amounts (.basic kind) kind from rfl) hsame)

theorem Env.Sealed.upholds_assign {D : String → ConstDef → Prop} (hsealed : env.Sealed) (site : Site)
    {tv : TypeAndValue} {target : Ty}
    (r : ByteRange) (use : Use) {value : ConstValue} {kind : BasicKind} (hvalue : tv.const? = some value)
    (hfits : env.Fits W ⟨tv.type, value⟩) (htv : Mentions env.Declares tv.type) (ht : Mentions env.Declares target)
    (hkind : env.Amounts target kind) :
    Upholds (Linked env D [] kept P) (fun fit => fit = true → env.Fits W ⟨target, value.convert kind⟩)
      (assign env site tv target r use) := by
  have hvalid : (tv.type.isInvalid || target.isInvalid) = false := by
    obtain ⟨own, hown, -⟩ := hfits
    rw [Bool.or_eq_false_iff]
    exact ⟨hown.not_isInvalid, hkind.not_isInvalid⟩
  unfold assign
  rw [hvalid]
  refine (hsealed.upholds_assignable hrange hvalue hfits htv ht hkind).bind fun fit hfit => ?_
  split
  · exact upholds_pure fun _ => hfit rfl
  · exact hsealed.setting.complain_pure _ _ rfl nofun

end

/-! ## Expressions -/

section
variable {constOf : String → Step (Option ConstDef)}

/-- A literal with a type in front is no constant. -/
theorem weighs_checkBody {file : Nat} {e : Expr} (site : Site) (t : Ty) (offset : Nat) (elided : Bool) :
    ∀ b : LitBody,
    Upholds (fun _ => True) (env.Weighs W file e) (checkBody env constOf site t offset elided b) := by
  rintro ⟨range, _, elements⟩
  rw [checkBody]
  split
  · exact upholds_pure weighs_none
  · refine upholds_any.bind fun base _ => ?_
    obtain ⟨baseType, base⟩ := base
    dsimp only
    split
    · split
      · exact upholds_any.bind fun _ _ => upholds_pure weighs_value
      · split
        · exact upholds_any.bind fun _ _ => upholds_pure weighs_value
        · split
          · refine upholds_any.bind fun _ _ => ?_
            split
            · exact upholds_any.bind fun _ _ => upholds_pure weighs_value
            · exact upholds_pure weighs_value
          · exact upholds_pure weighs_value
    · exact upholds_any.bind fun _ _ => upholds_pure weighs_value
    · exact upholds_any.bind fun _ _ => upholds_pure weighs_value
    · exact upholds_pure weighs_none
    · exact upholds_any.bind fun _ _ => upholds_pure weighs_none

theorem Upholds.recordValue {I : State → Prop} (hI : Setting env I env.Declares) {file : Nat} {e e' : Expr}
    {x : Step (Option TypeAndValue)} (r : ByteRange) (hx : Upholds I (env.Weighs W file e) x)
    (he : env.Untyped file e' → env.Untyped file e) : Upholds I (env.Weighs W file e') (x >>= Check.recordValue r) :=
  hx.bind fun _ hv => hI.recordValue r fun tv htv value hvalue =>
    ⟨(hv tv htv value hvalue).1, fun h => (hv tv htv value hvalue).2 (he h)⟩

end

section
variable {constOf : String → Step (Option ConstDef)} {I : State → Prop}
  (hrange : ∀ kind n, ConstValue.intFits kind n = .ok () → W kind n)
  (hlookup : ∀ file name b, env.lookup file name = some b → b.Yields (env.Fits W))
  (hI : Setting env I env.Declares) (hconst : ∀ name, Upholds I (fun d => ∀ c ∈ d, env.Sound W name c)
    (constOf name))
include hI

include hrange in
theorem weighs_literal (site : Site) (t : Token) :
    Upholds I (env.Weighs W site.file (.literal t)) (literal site t) := by
  unfold literal
  split
  · rename_i value _
    obtain ⟨hfits, huntyped⟩ : env.Fits W ⟨_, value⟩ ∧ IsUntyped _ := fits_untypedKind hrange value
    exact upholds_pure (weighs_some (c := ⟨_, value⟩) hfits fun _ => huntyped)
  · exact hI.complain_pure _ _ rfl weighs_none

include hrange hlookup hconst in
theorem weighs_nameExpr (site : Site) (id : Token) :
    Upholds I (env.Weighs W site.file (.name id)) (nameExpr env constOf site id) := by
  unfold nameExpr
  cases hb : env.lookup site.file id.text with
  | none => exact hI.complain_pure _ _ rfl weighs_none
  | some b =>
    cases b with
    | localConst =>
      refine (hconst _).bind fun d hd => upholds_pure ?_
      cases d with
      | none => exact weighs_none
      | some c =>
        refine weighs_some (hd c rfl).fits fun hu => ?_
        cases hu with
        | iota h => cases hb.symm.trans h
        | const h _ => cases hb.symm.trans h
        | declared _ hdecl hvalue => exact (hd c rfl).untyped _ _ _ _ hdecl hvalue
    | const d =>
      refine upholds_pure (weighs_some (hlookup _ _ _ hb) fun hu => ?_)
      cases hu with
      | iota h => cases hb.symm.trans h
      | const h huntyped =>
        cases hb.symm.trans h
        exact huntyped
      | declared h _ _ => cases hb.symm.trans h
    | iota =>
      dsimp only
      split
      · rename_i n _
        obtain ⟨hfits, huntyped⟩ : env.Fits W ⟨_, .int n⟩ ∧ IsUntyped _ := fits_untypedKind hrange (.int n)
        exact upholds_pure (weighs_some (c := ⟨_, .int n⟩) hfits fun _ => huntyped)
      · exact hI.complain_pure _ _ rfl weighs_none
    | type _ | localType | package _ => exact hI.complain_pure _ _ rfl weighs_none

include hlookup in
theorem weighs_selectorExpr (site : Site) (offset : Nat) (range : ByteRange) (qualifier name : Token) :
    Upholds I (env.Weighs W site.file (.selector range (some qualifier) (some name)))
      (selectorExpr env site offset qualifier name) := by
  unfold selectorExpr
  dsimp only
  cases hb : env.lookup site.file qualifier.text with
  | none => exact hI.complain_pure _ _ rfl weighs_none
  | some b =>
    cases b with
    | package p =>
      cases p with
      | none => exact upholds_pure weighs_none
      | some s =>
        dsimp only
        split
        · exact hI.complain_pure _ _ rfl weighs_none
        · split
          · rename_i d hd
            refine upholds_pure (weighs_some (hlookup _ _ _ hb _ d hd) fun hu => ?_)
            cases hu with
            | selected h hd' huntyped =>
              cases hb.symm.trans h
              cases hd.symm.trans hd'
              exact huntyped
          · split <;> exact hI.complain_pure _ _ rfl weighs_none
    | type _ | localType | localConst | const _ | iota => exact hI.complain_pure _ _ rfl weighs_none

include hrange in
theorem weighs_signedOperand (site : Site) (offset : Nat) (range r : ByteRange) (op : Token) {operand : Expr}
    {tv : TypeAndValue}
    (htv : env.Weighs W site.file operand (some tv))
    (hminus : op.kind = .minus → (∀ kind n, W kind n → W kind (-n)) ∨ env.Untyped site.file operand) :
    Upholds I (env.Weighs W site.file (.unary range op operand)) (signedOperand env site offset op r tv) := by
  unfold signedOperand
  split
  · rename_i value' hsigned
    obtain ⟨value, hvalue, hsigned⟩ := Option.bind_eq_some_iff.mp hsigned
    obtain ⟨hfits, huntyped⟩ := htv tv rfl value hvalue
    refine upholds_pure (weighs_some (c := ⟨tv.type, value'⟩) ?_ fun hu => ?_)
    · exact fits_signed hrange hfits hsigned fun hop => (hminus hop).imp_right huntyped
    · cases hu with
      | unary hu => exact huntyped hu
  · exact hI.complain_pure _ _ rfl weighs_none

include hrange hlookup hconst in
/-- Along an expression constants fit their types, if a minus does. -/
theorem weighs_checkExpr (site : Site) : ∀ e : Expr,
    ((∀ kind n, W kind n → W kind (-n)) ∨ ∀ o ∈ e.negated, env.Untyped site.file o) →
    Upholds I (env.Weighs W site.file e) (checkExpr env constOf site e)
  | .missing, _ => by
    rw [checkExpr]
    exact upholds_pure weighs_none
  | .literal t, _ => by
    rw [checkExpr]
    exact (weighs_literal hrange hI site t).recordValue hI _ id
  | .name id, _ => by
    rw [checkExpr]
    exact (weighs_nameExpr hrange hlookup hI hconst site id).recordValue hI _ fun h => h
  | .selector range qualifier name, _ => by
    rw [checkExpr.eq_def]
    dsimp only
    split
    · exact (weighs_selectorExpr hlookup hI site _ range _ _).recordValue hI _ id
    · exact upholds_pure weighs_none
  | .paren range inner, h => by
    rw [checkExpr]
    refine (weighs_checkExpr site inner h).recordValue hI _ fun hu => ?_
    cases hu with
    | paren hu => exact hu
  | .unary range op operand, h => by
    rw [Expr.negated] at h
    have hoperand := h.imp_right fun hall o ho => hall o (List.mem_append_right _ ho)
    rw [checkExpr]
    refine (weighs_checkExpr site operand hoperand).bind fun v hv => ?_
    cases v with
    | none => exact upholds_pure weighs_none
    | some tv =>
      refine (weighs_signedOperand hrange hI site _ range _ op hv fun hop => ?_).recordValue hI _ id
      exact h.imp_right fun hall => hall operand (by simp [hop])
  | .composite range type _ body, _ => by
    have hmentions (name : String) : Upholds I (DefMentions env.Declares) (constOf name) :=
      (hconst name).mono fun d hd c hc => (hd c hc).mentions
    rw [checkExpr]
    refine (hI.resolveType site type).bind fun t ht => ?_
    exact ((hI.checkBody hmentions site ht _ _ body).answers (weighs_checkBody site t _ _ body)).recordValue hI _ id
  | .type t _, _ => by
    rw [checkExpr]
    exact (hI.resolveType site t).bind fun _ _ => hI.complain_pure _ _ rfl weighs_none

end

/-! ## Declarations -/

/-- Every minus in the declaration of a constant stands before an operand without a type. -/
def Env.NegatesUntyped (env : Env) : Prop :=
  ∀ name file id type value iota, env.decls.find? name = some (.const file id type value iota) →
    ∀ o ∈ value.negated, env.Untyped file o

section
variable (hrange : ∀ kind n, ConstValue.intFits kind n = .ok () → W kind n)
  (hlookup : ∀ file name b, env.lookup file name = some b → b.Yields (env.Fits W))
  (hminus : (∀ kind n, W kind n → W kind (-n)) ∨ env.NegatesUntyped)
include hrange hlookup hminus

/-- A constant that is declared by means of constants that fit their types fits its own. -/
theorem Env.Sealed.defines_sound (hsealed : env.Sealed) : env.Defines (env.Sound W) := by
  intro kept P constOf hconst name file id type value iota hd
  have hnone : ∀ c ∈ (none : Option ConstDef), env.Sound W name c := nofun
  have hI : Setting env (Linked env (env.Sound W) [] kept P) env.Declares := hsealed.setting
  have hmentions (name : String) : Upholds (Linked env (env.Sound W) [] kept P) (DefMentions env.Declares)
    (constOf name) :=
    (hconst name).mono fun d hd c hc => (hd c hc).mentions
  have hnegated := hminus.imp_right fun h => h name file id type value iota hd
  unfold constDef
  refine (hI.resolveType _ type).bind fun declared hdeclared => ?_
  split
  · exact hI.complain_pure _ _ rfl hnone
  · have hexpr := (hI.checkExpr hmentions (env.site file (some iota)) value).and
      (weighs_checkExpr hrange hlookup hI hconst (env.site file (some iota)) value hnegated)
    refine hexpr.bind fun v ⟨htv, hv⟩ => ?_
    cases v with
    | none => exact upholds_pure hnone
    | some tv =>
      have htv := htv tv rfl
      dsimp only
      split
      · exact hI.complain_pure _ _ rfl hnone
      · rename_i constant hconstant
        obtain ⟨hfits, huntyped⟩ := hv tv rfl constant hconstant
        split
        · refine upholds_pure ?_
          rintro _ ⟨⟩
          refine ⟨htv, hfits, fun file' id' value' iota' hd' hu => ?_⟩
          cases hd.symm.trans hd'
          exact huntyped hu
        · rename_i hgiven
          split
          · exact upholds_pure hnone
          · refine (hsealed.upholds_underlying hdeclared).bind fun under hunder => ?_
            split
            · exact hI.complain_pure _ _ rfl hnone
            · rename_i kind hkind
              have hbasic : under = .basic kind := by
                cases under <;> cases hkind
                rfl
              have hamounts := (hunder kind).mp hbasic
              refine (hsealed.upholds_assign hrange _ _ _ hconstant hfits htv hdeclared hamounts).bind fun fit
                hfit => ?_
              split
              · refine upholds_pure ?_
                rintro _ ⟨⟩
                refine ⟨hdeclared, hfit ‹_›, fun file' id' value' iota' hd' _ => ?_⟩
                cases hd.symm.trans hd'
                exact absurd rfl hgiven
              · exact upholds_pure hnone

end

/-! ## What a package shows -/

/-- The surface agrees on what types come down to. -/
theorem Linked.underlying_surface {D : String → ConstDef → Prop} {s : State}
    (h : Linked env D [] env.IsTypeName P s) {t : Ty}
    {kind : BasicKind} (ht : env.Amounts t kind) : (surface env s).underlying t = .basic kind := by
  cases t with
  | basic k => exact congrArg Ty.basic ht
  | named r =>
    rw [Check.underlying_surface]
    dsimp only [Env.Amounts] at ht
    split
    · rename_i hown
      rw [if_pos hown] at ht
      obtain ⟨u, hu⟩ := Option.isSome_iff_exists.mp (h.finished r.name ht.isTypeName (h.kept r.name ht.isTypeName))
      rcases (h.types r.name u hu).2 with hunder | ⟨hloops, -⟩
      · rw [hu, hunder.unique ht]
        rfl
      · exact absurd hloops ht.not_loops
    · rename_i hforeign
      rwa [if_neg hforeign] at ht
  | _ => exact ht.elim

end

end Check

namespace Surface

/-- The value of a constant has the kind of its type. -/
def Kinded (s : Surface) (c : ConstDef) : Prop := ∃ kind, s.underlying c.type = .basic kind ∧ c.value.HasKind kind

/-- An integer lies in the range of its type, if that has one. -/
def InRange (s : Surface) (c : ConstDef) : Prop :=
  ∀ kind n least greatest, s.underlying c.type = .basic kind → c.value = .int n →
    kind.intRange = some (least, greatest) →
    least ≤ n ∧ n ≤ greatest

end Surface

namespace Check

section
variable {f : String → Imported} {path name : String} {sources : List Source} {W : BasicKind → Int → Prop}

theorem bool_of_predeclared {other : String} {d : ConstDef} (h : Env.predeclared? other = some (.const d)) :
    ∃ b, d = ⟨.basic .untypedBool, .bool b⟩ := by
  obtain ⟨p, hp, hb⟩ := Option.map_eq_some_iff.mp h
  unfold Predeclared.find? at hp
  dsimp only at hp
  split at hp <;> cases hp <;> cases hb <;> exact ⟨_, rfl⟩

theorem predeclared_ne_package {other : String} (p : Option Surface) :
    Env.predeclared? other ≠ some (.package p) := by
  intro h
  obtain ⟨q, -, hb⟩ := Option.map_eq_some_iff.mp h
  cases q <;> cases hb

section
variable (hc : Coherent f sources) (hforeign : ∀ key s, Reached f sources key s → Foreign path s)
  (hdepth : ∀ p ∈ importPaths sources, ∀ s, f p = .ok s → s.depth < 64)
include hc hforeign hdepth

/-- Constants of imported packages come down to the same kinds here as there. -/
theorem fits_given {p : String} {s : Surface} (hp : p ∈ importPaths sources) (hs : f p = .ok s)
    {e : String × ConstDef}
    (he : e ∈ s.consts) {kind : BasicKind} (hunder : s.underlying e.2.type = .basic kind)
    (hkind : e.2.value.HasKind kind)
    (hW : ∀ n, e.2.value = .int n → W kind n) : (environment f path name sources).Fits W e.2 := by
  refine ⟨kind, ?_, hkind, hW⟩
  have hconsts := (hforeign s.path s (.given hp hs)).consts e he
  cases ht : e.2.type with
  | basic k =>
    rw [ht] at hunder
    exact Ty.basic.inj hunder
  | named r =>
    rw [ht] at hunder hconsts
    have hne : r.package ≠ path := hconsts r (List.mem_singleton_self r)
    have hfound : s.underlying? r = some (.basic kind) := by
      rw [Surface.underlying] at hunder
      cases hu : s.underlying? r with
      | none =>
        rw [hu] at hunder
        cases hunder
      | some u =>
        rw [hu] at hunder
        exact congrArg some hunder
    dsimp only [Env.Amounts]
    rw [if_neg (show ¬ r.package = (environment f path name sources).path from hne), Surface.underlying,
      underlying?_of_given hc hp hs (hdepth p hp s hs) hne hfound]
    rfl
  | _ =>
    rw [ht] at hunder
    cases hunder

end

/-- What is known of the predeclared constants and of those of imported packages is known of all that names bring. -/
theorem yields_environment {Q : ConstDef → Prop} (hbool : ∀ b, Q ⟨.basic .untypedBool, .bool b⟩)
    (hgiven : ∀ p ∈ importPaths sources, ∀ s, f p = .ok s → ∀ e ∈ s.consts, Q e.2)
    {file : Nat} {other : String} {b : Binding} (h : (environment f path name sources).lookup file other =
      some b) : b.Yields Q := by
  rcases lookup_given h with rfl | rfl | rfl | h | ⟨p, hp, s, hs, rfl | ⟨-, rfl⟩ | ⟨d, hd, rfl⟩⟩
  · trivial
  · trivial
  · trivial
  · cases b with
    | const d =>
      obtain ⟨b, rfl⟩ := bool_of_predeclared h
      exact hbool b
    | package p => exact absurd h (predeclared_ne_package p)
    | _ => trivial
  · exact fun n d hd => hgiven p hp s hs _ (Table.mem_of_find? hd)
  · trivial
  · exact hgiven p hp s hs _ (Table.mem_of_find? hd)

/-- In the end of a check the constants fit their types. -/
theorem fits_check (hforeign : ∀ key s, Reached f sources key s → Foreign path s)
    (hrange : ∀ kind n, ConstValue.intFits kind n = .ok () → W kind n)
    (hgiven : ∀ p ∈ importPaths sources, ∀ s, f p = .ok s → ∀ e ∈ s.consts,
      (environment f path name sources).Fits W e.2)
    (hminus : (∀ kind n, W kind n → W kind (-n)) ∨ (environment f path name sources).NegatesUntyped) :
    ∀ e ∈ (check path name sources (importsBy f sources)).surface.consts, ∃ kind,
      (check path name sources (importsBy f sources)).surface.underlying e.2.type = .basic kind ∧
        e.2.value.HasKind kind ∧ ∀ n, e.2.value = .int n → W kind n := by
  have hsealed : (environment f path name sources).Sealed := sealed_environment hforeign
  have hdefines :=
    hsealed.defines_sound hrange (fun _ _ _ => yields_environment (fun b => (fits_untypedKind hrange (.bool b)).1)
      hgiven) hminus
  obtain ⟨P, hlinked, -⟩ := hsealed.linked_body hdefines (fun _ _ h => h.mentions) (nodup_collect sources)
    (linked_start (f := f) _ _)
  intro e he
  obtain ⟨kind, hamounts, hkind, hW⟩ := (hlinked.consts e he).fits
  exact ⟨kind, hlinked.underlying_surface hamounts, hkind, hW⟩

end

/-- Typed constants stay in range as far as no minus is put before one: each constant that a package shows has a
value of the kind of its type, and if every minus in the declarations stands before an operand without a type, then
the value lies in the range of the type as well. The constants of imported packages must do so. -/
theorem consts_in_range (f : String → Imported) (path name : String) (sources : List Source)
    (hc : Coherent f sources)
    (hforeign : ∀ key s, Reached f sources key s → Foreign path s)
    (hs : ∀ p ∈ importPaths sources, ∀ s, f p = .ok s → s.depth < 64 ∧ ∀ e ∈ s.consts, s.Kinded e.2 ∧
      s.InRange e.2) :
    let surface := (check path name sources (importsBy f sources)).surface
    (∀ e ∈ surface.consts, surface.Kinded e.2) ∧
      ((environment f path name sources).NegatesUntyped → ∀ e ∈ surface.consts, surface.InRange e.2) := by
  have hdepth := fun p hp s hf => (hs p hp s hf).1
  refine ⟨fun e he => ?_, fun hnegates e he => ?_⟩
  · obtain ⟨kind, hunder, hkind, -⟩ := @fits_check f path name sources (fun _ _ => True) hforeign
      (fun _ _ _ => trivial)
      (fun p hp s hf e he => by
        obtain ⟨kind, hunder, hkind⟩ := ((hs p hp s hf).2 e he).1
        exact fits_given hc hforeign hdepth hp hf he hunder hkind fun _ _ => trivial)
      (Or.inl fun _ _ _ => trivial) e he
    exact ⟨kind, hunder, hkind⟩
  · obtain ⟨kind, hunder, hkind, hin⟩ :=
      @fits_check f path name sources (fun kind n => intFits kind n = .ok ()) hforeign
      (fun _ _ => id)
      (fun p hp s hf e he => by
        obtain ⟨⟨kind, hunder, hkind⟩, hin⟩ := (hs p hp s hf).2 e he
        exact fits_given hc hforeign hdepth hp hf he hunder hkind fun n hn =>
          intFits_iff.mpr fun least greatest => hin kind n least greatest hunder hn)
      (Or.inr hnegates) e he
    intro kind' n least greatest hunder' hn hrange
    cases hunder.symm.trans hunder'
    exact intFits_iff.mp (hin n hn) least greatest hrange

def isLiteral : Expr → Bool
  | .literal _ => true
  | _ => false

def Declared.negatesLiterals : Declared → Bool
  | .const _ _ _ value _ => value.negated.all isLiteral
  | .type .. => true

def lowSurface : Surface := ⟨"q", "q", [("T", .basic .int8)], [("Low", ⟨.named ⟨"q", "q", "T"⟩, .int (-128)⟩)], []⟩

def lowImporter (path : String) : Imported := if path = "q" then .ok lowSurface else .error "not found"

/-- Constants that come by their types and values on several ways. -/
def rangeFiles : List Source :=
  [.ofText ("package p\n\nimport \"q\"\n\ntype A q.T\n\nconst X A = -5\n\nconst (\n\tY = q.Low\n\tZ\n)\n\n" ++
    "const W float32 = 1\n")]

theorem lowImporter_ok {path : String} {s : Surface} (h : lowImporter path = .ok s) : s = lowSurface := by
  rw [lowImporter] at h
  split at h
  · cases h
    rfl
  · cases h

theorem lowSurface_fits : ∀ e ∈ lowSurface.consts, lowSurface.Kinded e.2 ∧ lowSurface.InRange e.2 := by
  intro e he
  obtain rfl := List.mem_singleton.mp he
  refine ⟨⟨.int8, rfl, rfl⟩, ?_⟩
  rintro kind n least greatest hunder ⟨⟩ hrange
  obtain rfl : BasicKind.int8 = kind := Ty.basic.inj hunder
  cases hrange
  decide

theorem consts_in_range_sample :
    (check "p" "p" rangeFiles (importsBy lowImporter rangeFiles)).surface.consts.keys = ["X", "Y", "Z", "W"] ∧
      ∀ e ∈ (check "p" "p" rangeFiles (importsBy lowImporter rangeFiles)).surface.consts,
        (check "p" "p" rangeFiles (importsBy lowImporter rangeFiles)).surface.Kinded e.2 ∧
        (check "p" "p" rangeFiles (importsBy lowImporter rangeFiles)).surface.InRange e.2 := by
  have honly : ∀ key s, Reached lowImporter rangeFiles key s → s = lowSurface := fun key s h =>
    (reached_of_only lowSurface (fun _ _ => lowImporter_ok) rfl h).2
  have hnegates : (environment lowImporter "p" "p" rangeFiles).NegatesUntyped := by
    have hall : ((environment lowImporter "p" "p" rangeFiles).decls.all fun e => e.2.negatesLiterals) = true := by
      decide +kernel
    intro name file id type value iota hd o ho
    have hliteral := List.all_eq_true.mp (List.all_eq_true.mp hall _ (Table.mem_of_find? hd)) o ho
    cases o with
    | literal t => exact .literal
    | _ => cases hliteral
  obtain ⟨hkinded, hrange⟩ := consts_in_range lowImporter "p" "p" rangeFiles
    (fun key s t hs ht => (honly key s hs).trans (honly key t ht).symm)
    (fun key s hs => honly key s hs ▸ ⟨by decide, by decide, by decide⟩)
    (fun p _ s hs => lowImporter_ok hs ▸ ⟨by decide, lowSurface_fits⟩)
  exact ⟨by decide +kernel, fun e he => ⟨hkinded e he, hrange hnegates e he⟩⟩

/-- A minus before a constant that has a type can lead out of the range of the type. -/
example : ((check "p" "p" [.ofText "package p\n\nconst X int8 = -128\n\nconst Y = -X\n"] []).surface.consts.find?
      "Y").map
    ConstDef.value = some (.int 128) := by decide +kernel

end Check

end IdlWorkbench
