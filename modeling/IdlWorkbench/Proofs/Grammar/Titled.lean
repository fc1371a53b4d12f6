import IdlWorkbench.Proofs.Grammar.Formed

/-!
# Fields have names

A struct type can be the type of a field, but not stand for one: what a struct embeds is written as a name, with
stars or without. So each field that holds a struct type has names, whether the text follows the grammar or not.
-/

namespace IdlWorkbench

mutual

/-- Fields of struct types have names, where they are stored in the type. -/
def TypeExpr.Titled : TypeExpr → Prop
  | .struct _ _ fields => TitledFields fields
  | _ => True

def TitledFields : List (Item Field) → Prop
  | [] => True
  | .gap _ :: rest | .comment _ :: rest => TitledFields rest
  | .entry ⟨_, _, names, type, _, _⟩ :: rest =>
    (names = [] → ∀ range braces fields, type ≠ .struct range braces fields) ∧ type.Titled ∧ TitledFields rest

end

namespace Tree

theorem exists_of_mem_typesAmong : ∀ {cs : List Tree} {e : TypeExpr},
    e ∈ typesAmong cs → ∃ c ∈ cs, TypeExpr.ofTree? c = some e
  | [], _, h => nomatch h
  | c :: cs, e, h => by
    rw [typesAmong] at h
    split at h
    · rename_i type hc
      rcases List.mem_cons.mp h with rfl | h
      · exact ⟨c, List.mem_cons_self, hc⟩
      · obtain ⟨d, hd, he⟩ := exists_of_mem_typesAmong h
        exact ⟨d, List.mem_cons_of_mem _ hd, he⟩
    · obtain ⟨d, hd, he⟩ := exists_of_mem_typesAmong h
      exact ⟨d, List.mem_cons_of_mem _ hd, he⟩

/-- There is no type, or it is the type of a child. -/
theorem headD_typesAmong (cs : List Tree) : (typesAmong cs).headD .missing = .missing ∨
    ∃ c ∈ cs, TypeExpr.ofTree? c = some ((typesAmong cs).headD .missing) := by
  cases h : typesAmong cs with
  | nil => exact Or.inl rfl
  | cons e es => exact Or.inr (exists_of_mem_typesAmong (e := e) (by rw [h]; exact List.mem_cons_self))

theorem isNode_of_struct {c : Tree} {range : ByteRange} {braces : Braces} {fields : List (Item Field)}
    (h : TypeExpr.ofTree? c = some (.struct range braces fields)) : c.isNode .structType = true := by
  cases c with
  | leaf tok => cases h
  | node kind r cs =>
    cases kind with
    | structType => rfl
    | nameRef =>
      obtain ⟨id, -, hid⟩ := Option.map_eq_some_iff.mp h
      cases hid
    | _ => cases h

/-- A field without names holds no struct type. -/
theorem Titled.ne_struct {cs : List Tree} (h : Titled cs) (hnames : namesAmong cs = []) (range : ByteRange)
    (braces : Braces)
    (fields : List (Item Field)) : (typesAmong cs).headD .missing ≠ .struct range braces fields := by
  intro heq
  rcases headD_typesAmong cs with hmissing | ⟨c, hc, hread⟩
  · rw [heq] at hmissing
    cases hmissing
  · have hstruct := isNode_of_struct (hread.trans (congrArg some heq))
    rw [h.resolve_left (not_not.mpr hnames) c hc] at hstruct
    cases hstruct

end Tree

open IdlWorkbench.Tree

mutual

theorem titled_type : ∀ {t : Tree} {type : TypeExpr}, t.Formed → TypeExpr.ofTree? t = some type → type.Titled
  | .leaf _, _, _, h => by cases h
  | .node kind r cs, type, hf, h => by
    cases kind with
    | structType =>
      cases h
      exact titled_fieldsIn fun c hc => hf.child hc
    | nameRef =>
      obtain ⟨id, -, rfl⟩ := Option.map_eq_some_iff.mp h
      trivial
    | selector | sliceType | mapType | pointerType | chanType | funcType | interfaceType =>
      cases h
      trivial
    | _ => cases h

theorem titled_types : ∀ {cs : List Tree}, (∀ c ∈ cs, c.Formed) → ∀ e ∈ typesAmong cs, e.Titled
  | [], _ => nofun
  | c :: cs, hcs => by
    have hrest := titled_types fun d hd => hcs d (List.mem_cons_of_mem _ hd)
    rw [typesAmong]
    split
    · rename_i type h
      exact List.forall_mem_cons.mpr ⟨titled_type (hcs c List.mem_cons_self) h, hrest⟩
    · exact hrest

theorem titled_fieldsIn : ∀ {cs : List Tree}, (∀ c ∈ cs, c.Formed) → TitledFields (fieldsIn cs)
  | [], _ => trivial
  | .leaf _ :: cs, hcs => by
    rw [fieldsIn]
    exact titled_fieldsIn fun d hd => hcs d (List.mem_cons_of_mem _ hd)
  | .node kind r ds :: cs, hcs => by
    rw [fieldsIn]
    split
    · exact titled_fieldItems fun d hd => (hcs _ List.mem_cons_self).child hd
    · exact titled_fieldsIn fun d hd => hcs d (List.mem_cons_of_mem _ hd)

theorem titled_fieldItems : ∀ {cs : List Tree}, (∀ c ∈ cs, c.Formed) → TitledFields (fieldItems cs)
  | [], _ => trivial
  | .leaf t :: cs, hcs => by
    have hrest : TitledFields (fieldItems cs) := titled_fieldItems fun d hd => hcs d (List.mem_cons_of_mem _ hd)
    rw [fieldItems, Item.ofToken?]
    split
    · exact hrest
    · split <;> exact hrest
  | .node kind r ds :: cs, hcs => by
    have hrest : TitledFields (fieldItems cs) := titled_fieldItems fun d hd => hcs d (List.mem_cons_of_mem _ hd)
    have hfield := hcs _ List.mem_cons_self
    rw [fieldItems]
    split
    · rename_i hk
      subst hk
      refine ⟨hfield.fits.2.ne_struct, ?_, hrest⟩
      cases htypes : typesAmong ds with
      | nil => trivial
      | cons e es => exact titled_types (fun d hd => hfield.child hd) e (htypes ▸ List.mem_cons_self)
    · exact hrest

end

/-- Type specs stand in the declarations of the file. -/
theorem exists_of_mem_typeSpecs {t : Tree} {spec : TypeSpec} (h : spec ∈ (SourceFile.ofTree t).typeSpecs) :
    ∃ r cs c, .node .typeDecl r cs ∈ t.children ∧ c ∈ cs ∧ TypeSpec.ofTree? c = some spec := by
  obtain ⟨decl, hdecl, hspec⟩ := List.mem_flatMap.mp h
  obtain ⟨top, htop, hdecl⟩ := List.mem_filterMap.mp hdecl
  obtain ⟨d, hd, htop⟩ := exists_of_mem_entries htop
  unfold TopLevel.ofTree? at htop
  split at htop
  · cases htop
    cases hdecl
  · cases htop
    cases hdecl
  · cases htop
    cases hdecl
    obtain ⟨c, hc, hspec⟩ := exists_of_mem_specs hspec
    exact ⟨_, _, c, hd, hc, hspec⟩
  · cases htop
    cases hdecl
  · cases htop

/-- The types that a source file declares. -/
theorem titled_typeSpec {text : String} {spec : TypeSpec}
    (h : spec ∈ (parse text).file.typeSpecs) : spec.type.Titled := by
  obtain ⟨r, cs, c, hdecl, hc, hspec⟩ := exists_of_mem_typeSpecs h
  have hformed : c.Formed := by
    obtain ⟨_, hroot⟩ := tree_parse text
    have hfile := Grammar.parse_formed text
    rw [hroot] at hfile
    exact (hfile.child hdecl).child hc
  unfold TypeSpec.ofTree? at hspec
  split at hspec
  · rename_i range children
    obtain ⟨name, -, rfl⟩ := Option.map_eq_some_iff.mp hspec
    rcases headD_typesAmong children with hmissing | ⟨d, hd, hread⟩
    · show TypeExpr.Titled ((typesAmong children).headD .missing)
      rw [hmissing]
      trivial
    · exact titled_type (hformed.child hd) hread
  · cases hspec

end IdlWorkbench
