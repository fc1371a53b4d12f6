import IdlWorkbench.Proofs.Check.Traverse
import IdlWorkbench.Proofs.Check.Verdict

/-!
# Invariants that resolving keeps

An invariant that does not look at what is recorded, reported and put aside needs no more than that resolving keeps
it. Then checking an expression keeps it as well, and so do the declaration of a constant and the tags of all docs.
-/

namespace IdlWorkbench.Check

def ValueMentions (N : NamedRef → Prop) (v : Option TypeAndValue) : Prop := ∀ tv ∈ v, Mentions N tv.type

def DefMentions (N : NamedRef → Prop) (d : Option ConstDef) : Prop := ∀ c ∈ d, Mentions N c.type

/-- What a name means brings only declared types with it that satisfy `N`. -/
def Binding.Brings (N : NamedRef → Prop) : Binding → Prop
  | .type t => Mentions N t
  | .const d => Mentions N d.type
  | .package (some s) => (∀ name, s.types.contains name = true → N (s.ref name)) ∧
      ∀ name d, s.consts.find? name = some d → Mentions N d.type
  | _ => True

/-- An invariant that only resolving could break, and does not, where declared types satisfy `N`. -/
structure Setting (env : Env) (I : State → Prop) (N : NamedRef → Prop) : Prop where
  aside : ∀ s t, Aside s t → I s → I t
  named : ∀ name, env.IsTypeName name → N (env.ref name)
  lookup : ∀ file name b, env.lookup file name = some b → b.Brings N
  underlying : ∀ t, Mentions N t → Upholds I (Mentions N) (underlying env t)

section
variable {env : Env} {I : State → Prop} {N : NamedRef → Prop} {α : Type} {Q : α → Prop} (h : Setting env I N)
include h

theorem Setting.complain (site : Site) (offset : Nat) {cause : TypeError} (hpass : cause.isPassing = true) :
    Upholds I (fun _ => True) (complain site offset cause) :=
  fun s hs => ⟨h.aside s _ (notes_complain (P := True) site offset hpass s).aside hs, trivial⟩

theorem Setting.complain_pure {a : α} (site : Site) (offset : Nat) {cause : TypeError}
    (hpass : cause.isPassing = true)
    (ha : Q a) : Upholds I Q (Check.complain site offset cause >>= fun _ => pure a) :=
  (h.complain site offset hpass).bind fun _ _ => upholds_pure ha

theorem Setting.record (r : ByteRange) (tv : TypeAndValue) : Upholds I (fun _ => True) (record r tv) :=
  upholds_modify fun s hs => h.aside s _ ⟨rfl, rfl, List.prefix_rfl, [], rfl, nofun⟩ hs

theorem Setting.recordValue {Q : Option TypeAndValue → Prop} (r : ByteRange) : ∀ {v : Option TypeAndValue},
    Q v → Upholds I Q (recordValue r v)
  | none, hv => upholds_pure hv
  | some tv, hv => (h.record r tv).bind fun _ _ => upholds_pure hv

theorem Setting.withTable {x : Step α} (hx : Upholds I Q x) : Upholds I (fun r => Q r.1) (withTable x) := by
  have htable (t : TypeTable) {s : State} (hs : I s) : I { s with table := t } :=
    h.aside s _ ⟨rfl, rfl, List.prefix_rfl, [], rfl, nofun⟩ hs
  exact (hx.withTable (T := fun _ => True) (fun _ hs => htable _ hs) (fun _ _ _ ht => htable _ ht) fun _ _ =>
    trivial).mono
    fun _ hr => hr.1

end

/-- A declaration is checked between two notes on how far it is, and its nodes go to the table of the file. -/
theorem ends_declaring {α : Type} {name : String} {file : Nat} {x : Step α} {s : State} {Q : α → State → Prop} :
    Ends (declaring name file x) s Q ↔ Ends x (s.begin name) fun a t => Q a { t with
      table := s.table
      tables := t.tables.modify file (·.insertAll t.table)
      progress := t.progress.insert name .finished } := Iff.rfl

/-! ## Types -/

section
variable {env : Env} {N : NamedRef → Prop} (hnamed : ∀ name, env.IsTypeName name → N (env.ref name))
  (hlookup : ∀ file name b, env.lookup file name = some b → b.Brings N)
include hnamed hlookup

theorem mentions_nameMeaning (file : Nat) (id : Token) : Mentions N (env.nameMeaning file id) := by
  unfold Env.nameMeaning
  split
  · rename_i t hb
    exact hlookup file id.text _ hb
  · rename_i hb
    exact mentions_named.mpr (hnamed _ (isTypeName_of_lookup hb))
  · exact mentions_invalid

omit hnamed in
theorem mentions_selectedMeaning (file : Nat) (qualifier name : Token) :
    Mentions N (env.selectedMeaning file qualifier name) := by
  unfold Env.selectedMeaning
  split
  · rename_i s hb
    split
    · rename_i htype
      exact mentions_named.mpr ((hlookup file _ _ hb).1 _ (Bool.and_eq_true_iff.mp htype).2)
    · exact mentions_invalid
  · exact mentions_invalid

end

section
variable {env : Env} {N : NamedRef → Prop}

mutual

theorem mentions_meaning (hnamed : ∀ name, env.IsTypeName name → N (env.ref name))
    (hlookup : ∀ file name b, env.lookup file name = some b → b.Brings N) (file : Nat) :
    ∀ e : TypeExpr, Mentions N (env.meaning file e)
  | .missing => mentions_invalid
  | .name id => mentions_nameMeaning hnamed hlookup file id
  | .selector _ (some qualifier) (some name) => mentions_selectedMeaning hlookup file qualifier name
  | .selector _ none _ => mentions_invalid
  | .selector _ (some _) none => mentions_invalid
  | .slice _ elem => mentions_meaning hnamed hlookup file elem
  | .map _ key value =>
    mentions_map.mpr ⟨mentions_meaning hnamed hlookup file key, mentions_meaning hnamed hlookup file value⟩
  | .pointer _ elem => mentions_meaning hnamed hlookup file elem
  | .chan _ elem => mentions_meaning hnamed hlookup file elem
  | .func _ signature => mentions_signatureMeaning hnamed hlookup file signature
  | .struct _ _ fields => mentions_fieldMeanings hnamed hlookup file fields
  | .interface _ _ methods => mentions_methodMeanings hnamed hlookup file [] methods

theorem mentions_signatureMeaning (hnamed : ∀ name, env.IsTypeName name → N (env.ref name))
    (hlookup : ∀ file name b, env.lookup file name = some b → b.Brings N) (file : Nat) :
    ∀ signature : Signature, ∀ r ∈ Ty.refsAll (env.signatureMeaning file signature).1 ++
      Ty.refsAll (env.signatureMeaning file signature).2, N r
  | ⟨params, _, results⟩ => List.forall_mem_append.mpr
    ⟨mentions_paramMeanings hnamed hlookup file params, mentions_paramMeanings hnamed hlookup file results⟩

theorem mentions_paramMeanings (hnamed : ∀ name, env.IsTypeName name → N (env.ref name))
    (hlookup : ∀ file name b, env.lookup file name = some b → b.Brings N) (file : Nat) :
    ∀ params : List Param, ∀ r ∈ Ty.refsAll (env.paramMeanings file params), N r
  | [] => nofun
  | ⟨_, type⟩ :: rest => List.forall_mem_append.mpr
    ⟨mentions_meaning hnamed hlookup file type, mentions_paramMeanings hnamed hlookup file rest⟩

theorem mentions_fieldMeanings (hnamed : ∀ name, env.IsTypeName name → N (env.ref name))
    (hlookup : ∀ file name b, env.lookup file name = some b → b.Brings N) (file : Nat) :
    ∀ fields : List (Item Field), ∀ r ∈ Ty.refsFields (env.fieldMeanings file fields), N r
  | [] => nofun
  | .gap _ :: rest => mentions_fieldMeanings hnamed hlookup file rest
  | .comment _ :: rest => mentions_fieldMeanings hnamed hlookup file rest
  | .entry ⟨_, _, _, type, _, _⟩ :: rest => by
    rw [Env.fieldMeanings, refsFields_append]
    exact List.forall_mem_append.mpr
      ⟨mentions_fieldsOf (mentions_meaning hnamed hlookup file type) _,
        mentions_fieldMeanings hnamed hlookup file rest⟩

theorem mentions_methodMeanings (hnamed : ∀ name, env.IsTypeName name → N (env.ref name))
    (hlookup : ∀ file name b, env.lookup file name = some b → b.Brings N) (file : Nat) (seen : List String) :
    ∀ methods : List (Item Method), ∀ r ∈ Ty.refsMethods (env.methodMeanings file seen methods), N r
  | [] => nofun
  | .gap _ :: rest => mentions_methodMeanings hnamed hlookup file seen rest
  | .comment _ :: rest => mentions_methodMeanings hnamed hlookup file seen rest
  | .entry ⟨_, _, name, signature, _⟩ :: rest => by
    rw [Env.methodMeanings]
    split
    · exact mentions_methodMeanings hnamed hlookup file seen rest
    · exact List.forall_mem_append.mpr
        ⟨mentions_signatureMeaning hnamed hlookup file signature, mentions_methodMeanings hnamed hlookup file _ rest⟩

end

theorem Setting.resolveType {I : State → Prop} (h : Setting env I N) (site : Site) (e : TypeExpr) :
    Upholds I (Mentions N) (resolveType env site e) :=
  fun s hs => (ends_resolveType env site e s).mono fun _ t ht =>
    ⟨h.aside s t ht.2.aside hs, ht.1 ▸ mentions_meaning h.named h.lookup site.file e⟩

end

/-! ## Invariants that do not look at what is recorded -/

section
variable {env : Env} {I : State → Prop} {N : NamedRef → Prop} {constOf : String → Step (Option ConstDef)}
    (h : Setting env I N)
include h

theorem Setting.tracks : Tracks env I N fun tv => Mentions N tv.type where
  complain := h.complain
  record r tv _ := h.record r tv
  resolveType := h.resolveType
  underlying := h.underlying
  mentions := id
  value := id
  literal _ := mentions_basic
  const hb := h.lookup _ _ _ hb
  member hb hd := (h.lookup _ _ _ hb).2 _ _ hd
  signed ht _ := ht

variable (hc : ∀ name, Upholds I (DefMentions N) (constOf name))
include hc

omit h in
theorem supplies_mentions (site : Site) : Supplies I (fun tv => Mentions N tv.type) constOf site :=
  ⟨hc, fun _ _ => mentions_basic⟩

theorem Setting.checkExpr (site : Site) (e : Expr) : Upholds I (ValueMentions N) (checkExpr env constOf site e) :=
  h.tracks.checkExpr (supplies_mentions hc site) e

theorem Setting.checkBody (site : Site) {t : Ty} (ht : Mentions N t) (offset : Nat) (elided : Bool) (b : LitBody) :
    Upholds I (ValueMentions N) (checkBody env constOf site t offset elided b) :=
  h.tracks.checkBody (supplies_mentions hc site) ht offset elided b

theorem Setting.constDef (site : Site) (name : Token) (type : TypeExpr) (value : Expr) :
    Upholds I (DefMentions N) (constDef env constOf site name type value) :=
  h.tracks.constDef (T := Mentions N) (supplies_mentions hc site)
    (fun e => (h.resolveType site e).mono fun _ ht => ⟨ht, ht⟩) (fun _ _ htv _ => htv) (fun _ _ ht => ht)
      name type value

end

/-! ## Tags -/

def EveryTag (P : CheckedTag → Prop) (tags : Table (Nat × ByteRange) (List CheckedTag)) : Prop :=
  ∀ e ∈ tags, ∀ t ∈ e.2, P t

section
variable {env : Env} {I : State → Prop} {N : NamedRef → Prop}

theorem Upholds.tagTurns {P : CheckedTag → Prop}
    (htag : ∀ file tag, Upholds I (fun c => ∀ t ∈ c, P t) (checkTag env file tag)) :
    Upholds I (EveryTag P) (tagTurns env) := by
  unfold Check.tagTurns
  refine Upholds.loop (J := EveryTag P) (fun s table htable => ?_) _ (List.forall_mem_nil _)
  refine (Upholds.loop (J := EveryTag P) (fun entry table htable => ?_) _ htable).bind fun _ htable =>
    upholds_pure htable
  refine (Upholds.filterMapM (fun tag => htag _ tag) _).bind fun checked hchecked => ?_
  split
  · refine upholds_pure fun e he => ?_
    rcases Table.mem_insert he with he | rfl
    · exact htable e he
    · exact hchecked
  · exact upholds_pure htable

/-- The tags of all docs are expressions. -/
theorem Setting.tagTurns (h : Setting env I N) (hc : ∀ name, Upholds I (DefMentions N) (resolveConst env name)) :
    Upholds I (fun _ => True) (tagTurns env) := by
  refine (Upholds.tagTurns (P := fun _ => True) fun file tag => ?_).mono fun _ _ => trivial
  unfold checkTag
  split
  · exact (h.withTable (h.checkExpr hc _ tag.expr)).bind fun _ _ => upholds_pure fun _ _ => trivial
  · exact upholds_pure fun _ _ => trivial

end

end IdlWorkbench.Check
