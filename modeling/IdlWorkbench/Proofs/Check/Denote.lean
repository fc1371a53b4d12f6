import IdlWorkbench.Proofs.Action
import IdlWorkbench.Proofs.Check.Follow

/-!
# What a type expression denotes

Resolving a type expression is one thing after another: each type in it, those inside first, gets its entry in the
table, and the keys of map types are put aside. What is recorded depends on what names mean in the file and on
nothing that happened before, so it can be said without running the check. Nothing else changes, apart from reports.
-/

namespace IdlWorkbench

/-! ## The types in a type expression -/

mutual

/-- The types that a type expression is made of, those inside another one before it. -/
def TypeExpr.subs : TypeExpr → List TypeExpr
  | .missing => []
  | .name id => [.name id]
  | .selector range qualifier name => [.selector range qualifier name]
  | .slice range elem => elem.subs ++ [.slice range elem]
  | .map range key value => key.subs ++ value.subs ++ [.map range key value]
  | .pointer range elem => elem.subs ++ [.pointer range elem]
  | .chan range elem => elem.subs ++ [.chan range elem]
  | .func range signature => signature.subs ++ [.func range signature]
  | .struct range braces fields => fieldSubs fields ++ [.struct range braces fields]
  | .interface range braces methods => methodSubs methods ++ [.interface range braces methods]

def Signature.subs : Signature → List TypeExpr
  | ⟨params, _, results⟩ => paramSubs params ++ paramSubs results

def paramSubs : List Param → List TypeExpr
  | [] => []
  | ⟨_, type⟩ :: rest => type.subs ++ paramSubs rest

def fieldSubs : List (Item Field) → List TypeExpr
  | [] => []
  | .gap _ :: rest | .comment _ :: rest => fieldSubs rest
  | .entry ⟨_, _, _, type, _, _⟩ :: rest => type.subs ++ fieldSubs rest

def methodSubs : List (Item Method) → List TypeExpr
  | [] => []
  | .gap _ :: rest | .comment _ :: rest => methodSubs rest
  | .entry ⟨_, _, _, signature, _⟩ :: rest => signature.subs ++ methodSubs rest

end

/-- The causes that are found while a declaration is looked into. The others are found behind all declarations, or
on the way from one to the next. -/
def TypeError.isPassing : TypeError → Bool
  | .recursiveType _ | .badMapKey _ => false
  | _ => true

namespace Check

def fieldsOf (f : Field) (t : Ty) : List FieldTy :=
  let tag := f.tag.bind fun t => Token.unquote t.text
  if f.isEmbedded then ((embeddedName? f.type).map fun name => ⟨name, t, true, tag⟩).toList
  else f.names.map fun name => ⟨name.text, t, false, tag⟩

namespace Env

def nameMeaning (env : Env) (file : Nat) (id : Token) : Ty :=
  match env.lookup file id.text with
  | some (.type t) => t
  | some .localType => .named (env.ref id.text)
  | _ => .invalid

def selectedMeaning (env : Env) (file : Nat) (qualifier name : Token) : Ty :=
  match env.lookup file qualifier.text with
  | some (.package (some s)) =>
    if isExported name.text && s.types.contains name.text then .named (s.ref name.text) else .invalid
  | _ => .invalid

mutual

def meaning (env : Env) (file : Nat) : TypeExpr → Ty
  | .missing => .invalid
  | .name id => env.nameMeaning file id
  | .selector _ (some qualifier) (some name) => env.selectedMeaning file qualifier name
  | .selector _ _ _ => .invalid
  | .slice _ elem => .slice (env.meaning file elem)
  | .map _ key value => .map (env.meaning file key) (env.meaning file value)
  | .pointer _ elem => .pointer (env.meaning file elem)
  | .chan _ elem => .chan (env.meaning file elem)
  | .func _ signature => .func (env.signatureMeaning file signature).1 (env.signatureMeaning file signature).2
  | .struct _ _ fields => .struct (env.fieldMeanings file fields)
  | .interface _ _ methods => .interface (env.methodMeanings file [] methods)

def signatureMeaning (env : Env) (file : Nat) : Signature → List Ty × List Ty
  | ⟨params, _, results⟩ => (env.paramMeanings file params, env.paramMeanings file results)

def paramMeanings (env : Env) (file : Nat) : List Param → List Ty
  | [] => []
  | ⟨_, type⟩ :: rest => env.meaning file type :: env.paramMeanings file rest

def fieldMeanings (env : Env) (file : Nat) : List (Item Field) → List FieldTy
  | [] => []
  | .gap _ :: rest | .comment _ :: rest => env.fieldMeanings file rest
  | .entry ⟨range, doc, names, type, tag, trailing⟩ :: rest =>
    fieldsOf ⟨range, doc, names, type, tag, trailing⟩ (env.meaning file type) ++ env.fieldMeanings file rest

/-- The methods of an interface: of those with one name the first. -/
def methodMeanings (env : Env) (file : Nat) (seen : List String) : List (Item Method) → List MethodTy
  | [] => []
  | .gap _ :: rest | .comment _ :: rest => env.methodMeanings file seen rest
  | .entry ⟨_, _, name, signature, _⟩ :: rest =>
    if seen.contains name.text then env.methodMeanings file seen rest
    else ⟨name.text, (env.signatureMeaning file signature).1, (env.signatureMeaning file signature).2⟩ ::
      env.methodMeanings file (name.text :: seen) rest

end

def mapKey? (env : Env) (site : Site) : TypeExpr → Option MapKey
  | .map _ key _ =>
    if key.isMissing then none else some ⟨site.file, site.space, key.range.start, env.meaning site.file key⟩
  | _ => none

/-- Names have a meaning as types. The package that a selector names must have been imported, and the selector be
whole: of both something else was reported. -/
def Denotes (env : Env) (file : Nat) : TypeExpr → Prop
  | .name id => env.meaning file (.name id) ≠ .invalid
  | .selector range (some qualifier) (some name) =>
    env.lookup file qualifier.text ≠ some (.package none) →
      env.meaning file (.selector range (some qualifier) (some name)) ≠ .invalid
  | _ => True

end Env

/-! ## What changes on the way -/

/-- Between two states nothing was resolved: what was done is to record, to report and to put map keys aside. -/
structure Aside (s t : State) : Prop where
  core : t.core = s.core
  tables : t.tables = s.tables
  keys : s.keys <+: t.keys
  errors : ∃ new, t.errors = new ++ s.errors ∧ ∀ e ∈ new, e.cause.isPassing = true

/-- Nothing is changed but that passing causes are reported, and if none is, then `P` holds. -/
def Notes (P : Prop) (s t : State) : Prop :=
  ∃ new, t = { s with errors := new ++ s.errors } ∧ (∀ e ∈ new, e.cause.isPassing = true) ∧ (new = [] → P)

/-- From one state to the other the types in `subs` were resolved, one after the other. -/
structure Enters (env : Env) (site : Site) (subs : List TypeExpr) (s t : State) : Prop where
  core : t.core = s.core
  tables : t.tables = s.tables
  table : t.table = subs.foldl (fun table sub => table.insert sub.range ⟨.type, env.meaning site.file sub⟩) s.table
  keys : t.keys = s.keys ++ subs.filterMap (env.mapKey? site)
  errors : ∃ new, t.errors = new ++ s.errors ∧ (∀ e ∈ new, e.cause.isPassing = true) ∧
    (new = [] → ∀ sub ∈ subs, env.Denotes site.file sub)

section
variable {env : Env} {site : Site} {subs subs' : List TypeExpr} {sub : TypeExpr} {P : Prop} {s t u : State}

theorem notes_self (h : P) (s : State) : Notes P s s := ⟨[], rfl, nofun, fun _ => h⟩

theorem notes_complain (site : Site) (offset : Nat) {c : TypeError} (h : c.isPassing = true) (s : State) :
    Notes P s ((complain site offset c).run s).2 :=
  ⟨[⟨site.file, site.space, offset, c⟩], rfl, by simpa using h, nofun⟩

theorem Notes.then (h : Notes P s t) (h' : Notes True t u) : Notes P s u := by
  obtain ⟨new, rfl, hpass, hnone⟩ := h
  obtain ⟨new', rfl, hpass', -⟩ := h'
  refine ⟨new' ++ new, by
    rw [List.append_assoc], fun e he => ?_, fun hnil => hnone (List.append_eq_nil_iff.mp hnil).2⟩
  exact (List.mem_append.mp he).elim (hpass' e) (hpass e)

theorem Notes.aside (h : Notes P s t) : Aside s t := by
  obtain ⟨new, rfl, hpass, -⟩ := h
  exact ⟨rfl, rfl, List.prefix_rfl, new, rfl, hpass⟩

theorem Notes.enters_nil (h : Notes P s t) : Enters env site [] s t := by
  obtain ⟨new, rfl, hpass, -⟩ := h
  exact ⟨rfl, rfl, rfl, (List.append_nil _).symm, new, rfl, hpass, fun _ _ hsub => absurd hsub List.not_mem_nil⟩

theorem Enters.trans (h : Enters env site subs s t) (h' : Enters env site subs' t u) :
    Enters env site (subs ++ subs') s u := by
  refine ⟨h'.core.trans h.core, h'.tables.trans h.tables, ?_, ?_, ?_⟩
  · rw [h'.table, h.table, List.foldl_append]
  · rw [h'.keys, h.keys, List.filterMap_append, List.append_assoc]
  · obtain ⟨new, hnew, hpass, hnone⟩ := h.errors
    obtain ⟨new', hnew', hpass', hnone'⟩ := h'.errors
    refine ⟨new' ++ new, by rw [hnew', hnew, List.append_assoc], fun e he => ?_, fun hnil sub hsub => ?_⟩
    · exact (List.mem_append.mp he).elim (hpass' e) (hpass e)
    · obtain ⟨hnil', hnil⟩ := List.append_eq_nil_iff.mp hnil
      exact (List.mem_append.mp hsub).elim (hnone hnil sub) (hnone' hnil' sub)

theorem Enters.aside (h : Enters env site subs s t) : Aside s t := by
  obtain ⟨new, hnew, hpass, -⟩ := h.errors
  exact ⟨h.core, h.tables, ⟨_, h.keys.symm⟩, new, hnew, hpass⟩

/-- The entry of a type comes behind what was reported of it. -/
theorem Notes.enters (sub : TypeExpr) (h : Notes (env.Denotes site.file sub) s t)
    (hkey : env.mapKey? site sub = none) :
    Enters env site [sub] s { t with table := t.table.insert sub.range ⟨.type, env.meaning site.file sub⟩ } := by
  obtain ⟨new, rfl, hpass, hnone⟩ := h
  refine ⟨rfl, rfl, rfl, by simp [hkey], new, rfl, hpass, fun hnil => ?_⟩
  simpa using hnone hnil

theorem enters_map (range : ByteRange) (key value : TypeExpr) (s : State) :
    Ends (do
      postponeKey site key (env.meaning site.file key)
      recordType range (.map (env.meaning site.file key) (env.meaning site.file value))) s fun a t =>
        a = env.meaning site.file (.map range key value) ∧ Enters env site [.map range key value] s t := by
  unfold postponeKey
  split
  · rename_i hmissing
    have hkey : env.mapKey? site (.map range key value) = none := by rw [Env.mapKey?, if_pos hmissing]
    exact ⟨rfl, rfl, rfl, rfl, by simp [hkey]; rfl, [], rfl, nofun, fun _ => by simp [Env.Denotes]⟩
  · rename_i hmissing
    have hkey : env.mapKey? site (.map range key value) =
        some ⟨site.file, site.space, key.range.start, env.meaning site.file key⟩ := by
          rw [Env.mapKey?, if_neg hmissing]
    exact ⟨rfl, rfl, rfl, rfl, by simp [hkey]; rfl, [], rfl, nofun, fun _ => by simp [Env.Denotes]⟩

end

/-! ## Names -/

section
variable {env : Env} {site : Site}

theorem ne_invalid_of_predeclared {name : String} {t : Ty}
    (h : Env.predeclared? name = some (.type t)) : t ≠ .invalid := by
  rintro rfl
  obtain ⟨p, hp, hb⟩ := Option.map_eq_some_iff.mp h
  unfold Predeclared.find? at hp
  dsimp only at hp
  split at hp <;> cases hp <;> cases hb

/-- Names that are types have a meaning. -/
theorem ne_invalid_of_lookup {file : Nat} {name : String} {t : Ty}
    (h : env.lookup file name = some (.type t)) : t ≠ .invalid := by
  rw [Env.lookup] at h
  split at h
  · split at h <;> cases h
  · split at h
    · cases h
    · rw [Option.orElse_eq_orElse, Option.orElse_eq_or] at h
      rcases Option.or_eq_some_iff.mp h with h | ⟨-, h⟩
      · rw [Env.dotBinding?] at h
        split at h
        · obtain ⟨s, -, hb⟩ := List.exists_of_findSome?_eq_some h
          split at hb
          · cases hb
            rintro ⟨⟩
          · obtain ⟨d, -, hd⟩ := Option.map_eq_some_iff.mp hb
            cases hd
        · cases h
      · exact ne_invalid_of_predeclared h

theorem ends_typeName (id : Token) (s : State) : Ends (typeName env site id) s fun a t =>
    a = env.nameMeaning site.file id ∧ Notes (env.nameMeaning site.file id ≠ .invalid) s t := by
  unfold typeName Env.nameMeaning
  cases h : env.lookup site.file id.text with
  | none => exact ⟨rfl, notes_complain site _ rfl s⟩
  | some b =>
    cases b with
    | type t => exact ⟨rfl, notes_self (ne_invalid_of_lookup h) s⟩
    | localType => exact ⟨rfl, notes_self nofun s⟩
    | localConst | const _ | iota | package _ => exact ⟨rfl, notes_complain site _ rfl s⟩

theorem ends_selectedType (offset : Nat) (qualifier name : Token) (s : State) :
    Ends (selectedType env site offset qualifier name) s fun a t => a = env.selectedMeaning site.file
      qualifier name ∧
      Notes (env.lookup site.file qualifier.text ≠ some (.package none) →
        env.selectedMeaning site.file qualifier name ≠ .invalid) s t := by
  unfold selectedType Env.selectedMeaning
  dsimp only
  cases env.lookup site.file qualifier.text with
  | none => exact ⟨rfl, notes_complain site _ rfl s⟩
  | some b =>
    cases b with
    | package p =>
      cases p with
      | none => exact ⟨rfl, notes_self (fun h => absurd rfl h) s⟩
      | some pkg =>
        dsimp only
        cases hexported : isExported name.text with
        | false =>
          simp only [Bool.not_false, ite_true, Bool.false_and, Bool.false_eq_true, ite_false]
          exact ⟨rfl, notes_complain site _ rfl s⟩
        | true =>
          cases htype : pkg.types.contains name.text with
          | true =>
            simp only [Bool.not_true, Bool.false_eq_true, ite_false, ite_true, Bool.and_self]
            exact ⟨rfl, notes_self (fun _ => nofun) s⟩
          | false =>
            simp only [Bool.not_true, Bool.false_eq_true, ite_false, Bool.and_false]
            split <;> exact ⟨rfl, notes_complain site _ rfl s⟩
    | type _ | localType | localConst | const _ | iota => exact ⟨rfl, notes_complain site _ rfl s⟩

/-! ## Members -/

theorem notes_forM {α : Type} {f : α → Step PUnit} (hf : ∀ a s, Notes True s ((f a).run s).2) :
    ∀ (as : List α) (s : State), Notes True s ((as.forM f).run s).2
  | [], s => notes_self trivial s
  | a :: as, s => (hf a s).then (notes_forM hf as _)

theorem ends_declareFields (f : Field) (t : Ty) (seen : List String) (s : State) :
    Ends (declareFields site f t seen) s fun a u => a.1 = fieldsOf f t ∧ Notes True s u := by
  unfold declareFields fieldsOf
  dsimp only
  split
  · cases embeddedName? f.type with
    | none => exact ⟨rfl, notes_self trivial s⟩
    | some name =>
      dsimp only
      split
      · exact ⟨rfl, notes_complain site _ rfl s⟩
      · exact ⟨rfl, notes_self trivial s⟩
  · refine ⟨rfl, ?_⟩
    exact notes_forM (fun name s => notes_complain site name.offset (c := .fieldRedeclared name.text) rfl s)
      (repeatedNames seen f.names) s

end

/-! ## Type expressions -/

section
variable {env : Env} {site : Site} {s t : State}

/-- A type made of others has its entry behind theirs. -/
theorem Enters.ends_recordType {subs : List TypeExpr} (h : Enters env site subs s t) (sub : TypeExpr)
    (hkey : env.mapKey? site sub = none) (hdenotes : env.Denotes site.file sub) :
    Ends (recordType sub.range (env.meaning site.file sub)) t fun a u =>
      a = env.meaning site.file sub ∧ Enters env site (subs ++ [sub]) s u :=
  ⟨rfl, h.trans ((notes_self hdenotes t).enters sub hkey)⟩

end

mutual

/-- Resolving a type expression answers what it denotes, and enters the types that it is made of. -/
theorem ends_resolveType (env : Env) (site : Site) : ∀ (e : TypeExpr) (s : State),
    Ends (resolveType env site e) s fun a t => a = env.meaning site.file e ∧ Enters env site e.subs s t
  | .missing, s => ⟨rfl, (notes_self trivial s).enters_nil⟩
  | .name id, s => by
    rw [resolveType, ends_bind]
    refine (ends_typeName id s).mono fun a t ⟨ha, ht⟩ => ?_
    subst ha
    exact ⟨rfl, ht.enters (.name id) rfl⟩
  | .selector range qualifier name, s => by
    rw [resolveType.eq_def]
    dsimp only
    cases qualifier with
    | none => exact ⟨rfl, (notes_self trivial s).enters (.selector range none name) rfl⟩
    | some qualifier =>
      cases name with
      | none => exact ⟨rfl, (notes_self trivial s).enters (.selector range (some qualifier) none) rfl⟩
      | some name =>
        rw [ends_bind]
        refine (ends_selectedType range.start qualifier name s).mono fun a t ⟨ha, ht⟩ => ?_
        subst ha
        exact ⟨rfl, ht.enters (.selector range (some qualifier) (some name)) rfl⟩
  | .slice range elem, s => by
    rw [resolveType, ends_bind]
    refine (ends_resolveType env site elem s).mono fun a t ⟨ha, ht⟩ => ?_
    subst ha
    exact ht.ends_recordType (.slice range elem) rfl trivial
  | .map range key value, s => by
    rw [resolveType, ends_bind]
    refine (ends_resolveType env site key s).mono fun k t ⟨hk, ht⟩ => ?_
    subst hk
    rw [ends_bind]
    refine (ends_resolveType env site value t).mono fun v u ⟨hv, hu⟩ => ?_
    subst hv
    exact (enters_map range key value u).mono fun a w ⟨ha, hw⟩ => ⟨ha, (ht.trans hu).trans hw⟩
  | .pointer range elem, s => by
    rw [resolveType, ends_bind]
    refine (ends_resolveType env site elem s).mono fun a t ⟨ha, ht⟩ => ?_
    subst ha
    exact ht.ends_recordType (.pointer range elem) rfl trivial
  | .chan range elem, s => by
    rw [resolveType, ends_bind]
    refine (ends_resolveType env site elem s).mono fun a t ⟨ha, ht⟩ => ?_
    subst ha
    exact ht.ends_recordType (.chan range elem) rfl trivial
  | .func range signature, s => by
    rw [resolveType, ends_bind]
    refine (ends_resolveSignature env site signature s).mono fun a t ⟨ha, ht⟩ => ?_
    subst ha
    exact ht.ends_recordType (.func range signature) rfl trivial
  | .struct range braces fields, s => by
    rw [resolveType, ends_bind]
    refine (ends_resolveFields env site [] fields s).mono fun a t ⟨ha, ht⟩ => ?_
    subst ha
    exact ht.ends_recordType (.struct range braces fields) rfl trivial
  | .interface range braces methods, s => by
    rw [resolveType, ends_bind]
    refine (ends_resolveMethods env site [] methods s).mono fun a t ⟨ha, ht⟩ => ?_
    subst ha
    exact ht.ends_recordType (.interface range braces methods) rfl trivial

theorem ends_resolveSignature (env : Env) (site : Site) : ∀ (signature : Signature) (s : State),
    Ends (resolveSignature env site signature) s fun a t =>
      a = env.signatureMeaning site.file signature ∧ Enters env site signature.subs s t
  | ⟨params, _, results⟩, s => by
    rw [resolveSignature, ends_bind]
    refine (ends_resolveParams env site params s).mono fun ps t ⟨hps, ht⟩ => ?_
    subst hps
    rw [ends_bind]
    refine (ends_resolveParams env site results t).mono fun rs u ⟨hrs, hu⟩ => ?_
    subst hrs
    exact ⟨rfl, ht.trans hu⟩

theorem ends_resolveParams (env : Env) (site : Site) : ∀ (params : List Param) (s : State),
    Ends (resolveParams env site params) s fun a t =>
      a = env.paramMeanings site.file params ∧ Enters env site (paramSubs params) s t
  | [], s => by
    rw [resolveParams]
    exact ⟨rfl, (notes_self trivial s).enters_nil⟩
  | ⟨_, type⟩ :: rest, s => by
    rw [resolveParams, ends_bind]
    refine (ends_resolveType env site type s).mono fun a t ⟨ha, ht⟩ => ?_
    subst ha
    rw [ends_bind]
    refine (ends_resolveParams env site rest t).mono fun as u ⟨has, hu⟩ => ?_
    subst has
    exact ⟨rfl, ht.trans hu⟩

theorem ends_resolveFields (env : Env) (site : Site) (seen : List String) :
    ∀ (fields : List (Item Field)) (s : State),
    Ends (resolveFields env site seen fields) s fun a t =>
      a = env.fieldMeanings site.file fields ∧ Enters env site (fieldSubs fields) s t
  | [], s => by
    rw [resolveFields]
    exact ⟨rfl, (notes_self trivial s).enters_nil⟩
  | .gap _ :: rest, s => by
    rw [resolveFields]
    exact ends_resolveFields env site seen rest s
  | .comment _ :: rest, s => by
    rw [resolveFields]
    exact ends_resolveFields env site seen rest s
  | .entry ⟨range, doc, names, type, tag, trailing⟩ :: rest, s => by
    rw [resolveFields, ends_bind]
    refine (ends_resolveType env site type s).mono fun a t ⟨ha, ht⟩ => ?_
    subst ha
    rw [ends_bind]
    refine (ends_declareFields ⟨range, doc, names, type, tag, trailing⟩ _ seen t).mono fun r u ⟨hr, hu⟩ => ?_
    rw [ends_bind]
    refine (ends_resolveFields env site r.2 rest u).mono fun as w ⟨has, hw⟩ => ?_
    refine ⟨?_, ht.trans (hu.enters_nil.trans hw)⟩
    rw [Env.fieldMeanings, ← hr, ← has]
    rfl

theorem ends_resolveMethods (env : Env) (site : Site) (seen : List String) :
    ∀ (methods : List (Item Method)) (s : State),
    Ends (resolveMethods env site seen methods) s fun a t =>
      a = env.methodMeanings site.file seen methods ∧ Enters env site (methodSubs methods) s t
  | [], s => by
    rw [resolveMethods]
    exact ⟨rfl, (notes_self trivial s).enters_nil⟩
  | .gap _ :: rest, s => by
    rw [resolveMethods]
    exact ends_resolveMethods env site seen rest s
  | .comment _ :: rest, s => by
    rw [resolveMethods]
    exact ends_resolveMethods env site seen rest s
  | .entry ⟨_, _, name, signature, _⟩ :: rest, s => by
    rw [resolveMethods, ends_bind]
    refine (ends_resolveSignature env site signature s).mono fun r t ⟨hr, ht⟩ => ?_
    subst hr
    dsimp only
    rw [Env.methodMeanings]
    split
    · have hrepeated := notes_complain (P := True) site name.offset (c := .duplicateMethod name.text) rfl t
      rw [ends_bind, ends_iff]
      exact (ends_resolveMethods env site seen rest _).mono fun as u ⟨has, hu⟩ =>
        ⟨has, ht.trans (hrepeated.enters_nil.trans hu)⟩
    · rw [ends_bind]
      refine (ends_resolveMethods env site (name.text :: seen) rest t).mono fun as u ⟨has, hu⟩ => ?_
      subst has
      exact ⟨rfl, ht.trans hu⟩

end

end Check

end IdlWorkbench
