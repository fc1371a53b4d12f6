import IdlWorkbench.Proofs.Action
import IdlWorkbench.Proofs.Format.Carried
import IdlWorkbench.Proofs.Format.Tidy
import IdlWorkbench.Proofs.Grammar.Drawn

/-!
# Comments in printed files

Printing keeps account of the comments it carries over, and a file is refused if their number is not that of all its
comments. `Emits` ties the account to what is printed: a printer carries the comments of what it prints, no others,
and what is written for them stands in its answer, one behind the other. As no comment is carried twice, equal
numbers mean that all were carried.
-/

namespace IdlWorkbench.Format

/-! ## What is written for comments -/

def docLines (d : Doc) : Except FormatError (List String) :=
  if d.parts.tags.isEmpty then .ok (d.comments.map commentText)
  else (d.parts.parsedTags.mapM tagLines).map fun tags =>
    ((if d.parts.prose.isEmpty then [] else d.parts.prose ++ [""]) ++ tags.flatten).map asComment

/-- What is written for comments: each one's text, but the lines of a doc with tags together. -/
inductive Rendered (docs : List Doc) : List Token → List String → Prop
  | nil : Rendered docs [] []
  | comment (t : Token) {ts : List Token} {cs : List String} : Rendered docs ts cs →
    Rendered docs (t :: ts) (commentText t :: cs)
  | doc {d : Doc} {lines cs : List String} {ts : List Token} : d ∈ docs → d.parts.tags ≠ [] →
    docLines d = .ok lines → Rendered docs ts cs → Rendered docs (d.comments ++ ts) (lines ++ cs)

section
variable {docs : List Doc} {ts us : List Token} {cs ds : List String}

theorem Rendered.append (h : Rendered docs ts cs) (h' : Rendered docs us ds) :
    Rendered docs (ts ++ us) (cs ++ ds) := by
  induction h with
  | nil => exact h'
  | comment t _ ih => exact .comment t ih
  | doc hd htags hlines _ ih =>
    rw [List.append_assoc, List.append_assoc]
    exact .doc hd htags hlines ih

theorem rendered_map : ∀ ts : List Token, Rendered docs ts (ts.map commentText)
  | [] => .nil
  | t :: ts => .comment t (rendered_map ts)

/-- Where no doc has tags, every comment is written as it is. -/
theorem Rendered.eq_map (h : Rendered docs ts cs) (hdocs : ∀ d ∈ docs, d.parts.tags = []) :
    cs = ts.map commentText := by
  induction h with
  | nil => rfl
  | comment t _ ih => rw [ih, List.map_cons]
  | doc hd htags => exact absurd (hdocs _ hd) htags

end

/-! ## Printers -/

/-- The printer carries the comments `ts` over, and `P` holds of what is written for them and the answer. -/
def Emits {α : Type} (docs : List Doc) (P : List String → α → Prop) (ts : List Token) (p : Printer α) : Prop :=
  ∀ s x s', p.run s = .ok (x, s') → s' = ts.reverse ++ s ∧ ∃ cs, Rendered docs ts cs ∧ P cs x

section
variable {α β : Type} {docs : List Doc} {P P' : List String → α → Prop} {Q : List String → β → Prop}
    {ts us : List Token}

theorem emits_pure {x : α} (h : P [] x) : Emits docs P [] (pure x : Printer α) := by
  intro s y s' hrun
  rw [StateT.run_pure, pure_eq_ok] at hrun
  cases hrun
  exact ⟨rfl, [], .nil, h⟩

theorem Emits.mono {p : Printer α} (h : Emits docs P ts p) (hp : ∀ cs x, P cs x → P' cs x) : Emits docs P' ts p :=
  fun s x s' hrun => (h s x s' hrun).imp_right fun ⟨cs, hcs, hx⟩ => ⟨cs, hcs, hp cs x hx⟩

theorem Emits.bind {p : Printer α} {f : α → Printer β} (h : Emits docs P ts p)
    (hf : ∀ cs x, P cs x → Emits docs (fun ds y => Q (cs ++ ds) y) us (f x)) :
    Emits docs Q (ts ++ us) (p >>= f) := by
  intro s y s' hrun
  rw [StateT.run_bind] at hrun
  obtain ⟨⟨x, u⟩, hx, hy⟩ := bind_eq_ok.mp hrun
  obtain ⟨rfl, cs, hcs, hp⟩ := h s x u hx
  obtain ⟨rfl, ds, hds, hq⟩ := hf cs x hp _ y s' hy
  exact ⟨by rw [List.reverse_append, List.append_assoc], cs ++ ds, hcs.append hds, hq⟩

/-- A printer whose answer is used. -/
theorem Emits.map {p : Printer α} {f : α → β} (h : Emits docs P ts p) (hf : ∀ cs x, P cs x → Q cs (f x)) :
    Emits docs Q ts (p >>= fun x => pure (f x)) := by
  have hlast (cs : List String) (x : α) (hx : P cs x) : Emits docs (fun ds y => Q (cs ++ ds) y) []
    (pure (f x) : Printer β) :=
    emits_pure (by simpa using hf cs x hx)
  simpa using h.bind hlast

end

section
variable {docs : List Doc}

theorem run_carry (t : Token) (s : List Token) : (carry t).run s = .ok (commentText t, t :: s) := rfl

theorem emits_carry (t : Token) : Emits docs (fun cs x => cs = [x] ∧ x = commentText t) [t] (carry t) := by
  intro s x s' hrun
  rw [run_carry] at hrun
  cases hrun
  exact ⟨rfl, [commentText t], rendered_map [t], rfl, rfl⟩

theorem emits_carryTrailing (trailing : Option Token) :
    Emits docs (Along Holds) trailing.toList (carryTrailing trailing) := by
  cases trailing with
  | none => exact emits_pure .nil
  | some t =>
    refine (emits_carry t).map fun cs x h => ?_
    rw [h.1]
    exact along_self [x]

theorem emits_lineWithTrailing {cs : List String} {line : String} (h : Holds cs line) (trailing : Option Token) :
    Emits docs (fun ds x => Holds (cs ++ ds) x) trailing.toList (lineWithTrailing line trailing) :=
  (emits_carryTrailing trailing).map fun _ _ hds => (Along.cons h hds).intercalate " "

/-! ## Docs -/

theorem run_mapM_carry : ∀ (ts s : List Token), (ts.mapM carry).run s = .ok (ts.map commentText, ts.reverse ++ s)
  | [], _ => rfl
  | t :: ts, s => by
    have hrest : ((carry t >>= fun x => ts.mapM carry >>= fun xs => pure (x :: xs)) : Printer (List String)).run s =
        ((ts.mapM carry).run (t :: s) >>= fun r => pure (commentText t :: r.1, r.2)) := rfl
    rw [List.mapM_cons, hrest, run_mapM_carry ts]
    simp [bind, Except.bind, pure, Except.pure]

/-- What is printed for a doc does not depend on the comments that were carried before. -/
theorem run_docText (d : Doc) (s : List Token) :
    (docText (some d)).run s = (docLines d).map fun lines => (lines, d.comments.reverse ++ s) := by
  rw [docText, StateT.run_bind, run_mapM_carry]
  simp only [bind, Except.bind]
  rw [docLines]
  split
  · rfl
  · cases d.parts.parsedTags.mapM tagLines with
    | ok tags => rfl
    | error e => rfl

theorem emits_docText {doc : Option Doc} (hdoc : ∀ d ∈ doc, d ∈ docs) :
    Emits docs (Along Holds) (docComments doc) (docText doc) := by
  cases doc with
  | none => exact emits_pure .nil
  | some d =>
    intro s x s' hrun
    rw [run_docText] at hrun
    cases hlines : docLines d with
    | error e =>
      rw [hlines] at hrun
      cases hrun
    | ok lines =>
      rw [hlines] at hrun
      cases hrun
      refine ⟨rfl, x, ?_, along_self x⟩
      by_cases htags : d.parts.tags = []
      · rw [docLines, htags] at hlines
        cases hlines
        exact rendered_map d.comments
      · simpa [docComments] using Rendered.doc (hdoc d rfl) htags hlines .nil

/-! ## Rows -/

section
variable {cs ds : List String} {doc cells : List String}

theorem rowHolds (hdoc : Along Holds ds doc) (hcells : Along Holds cs cells) :
    ItemHolds (ds ++ cs) (.entry ⟨doc, cells⟩) :=
  ⟨ds, cs, rfl, hdoc, hcells⟩

end

/-- A comment between the rows. -/
theorem emits_comment {t : Token} {ts : List Token} {p : Printer (List (Item Row))}
    (h : Emits docs (Along ItemHolds) ts p) :
    Emits docs (Along ItemHolds) (t :: ts) (carry t >>= fun _ => p >>= fun rows => pure (.comment t :: rows)) := by
  refine (emits_carry t).bind fun cs x hx => h.map fun ds rows hrows => .cons ?_ hrows
  rw [hx.1, hx.2]
  rfl

theorem emits_gap {n : Nat} {ts : List Token} {p : Printer (List (Item Row))}
    (h : Emits docs (Along ItemHolds) ts p) :
    Emits docs (Along ItemHolds) ts (p >>= fun rows => pure (.gap n :: rows)) :=
  h.map fun _ _ hrows => .skip rfl hrows

/-! ## Types -/

section
variable (settings : FormatSettings) (numbers : Assignments)

mutual

theorem emits_type (depth : Nat) : ∀ t : TypeExpr, t.Tidy docs →
    Emits docs Holds t.comments (printType settings numbers depth t)
  | .missing, _ => by
    rw [TypeExpr.comments, printType]
    exact emits_pure (.nil _)
  | .name _, _ => by
    rw [TypeExpr.comments, printType]
    exact emits_pure (.nil _)
  | .selector .., _ => by
    rw [TypeExpr.comments, printType]
    exact emits_pure (.nil _)
  | .slice _ elem, h => by
    rw [TypeExpr.Tidy] at h
    rw [TypeExpr.comments, printType]
    exact (emits_type depth elem h).map fun _ _ h => h.behind "[]"
  | .pointer _ elem, h => by
    rw [TypeExpr.Tidy] at h
    rw [TypeExpr.comments, printType]
    exact (emits_type depth elem h).map fun _ _ h => h.behind "*"
  | .chan _ elem, h => by
    rw [TypeExpr.Tidy] at h
    rw [TypeExpr.comments, printType]
    exact (emits_type depth elem h).map fun _ _ h => h.behind "chan "
  | .map _ key value, h => by
    rw [TypeExpr.Tidy] at h
    rw [TypeExpr.comments, printType]
    refine (emits_type depth key h.1).bind fun _ _ hkey => (emits_type depth value h.2).map fun _ _ hvalue => ?_
    exact ((hkey.behind "map[").before "]").append hvalue
  | .func _ signature, h => by
    rw [TypeExpr.Tidy] at h
    rw [TypeExpr.comments, printType]
    exact (emits_signature depth signature h).map fun _ _ h => h.behind "func"
  | .struct _ braces fields, h => by
    rw [TypeExpr.Tidy] at h
    rw [TypeExpr.comments, printType]
    split
    · exact emits_pure (.nil _)
    · exact (emits_fieldRows (depth + 1) fields h).map fun _ _ h => holds_bracedText _ depth h
  | .interface _ braces methods, h => by
    rw [TypeExpr.Tidy] at h
    rw [TypeExpr.comments, printType]
    split
    · exact emits_pure (.nil _)
    · exact (emits_methodRows (depth + 1) methods h).map fun _ _ h => holds_bracedText _ depth h

theorem emits_signature (depth : Nat) : ∀ s : Signature, s.Tidy docs →
    Emits docs Holds s.comments (printSignature settings numbers depth s)
  | ⟨params, form, results⟩, h => by
    rw [Signature.Tidy] at h
    obtain ⟨hparams, hresults, hform⟩ := h
    rw [Signature.comments, printSignature]
    refine (emits_params depth params hparams).bind fun _ _ hp => (emits_params depth results hresults).map fun _ _
      hr => ?_
    rw [← hr.2] at hform
    exact holds_signatureText hp.1 hr.1 hform

theorem emits_params (depth : Nat) : ∀ ps : List Param, TidyParams docs ps →
    Emits docs (fun cs texts => Along Holds cs texts ∧ texts.length = ps.length) (paramComments ps)
      (printParams settings numbers depth ps)
  | [], _ => by
    rw [paramComments, printParams]
    exact emits_pure ⟨.nil, rfl⟩
  | ⟨name, type⟩ :: rest, h => by
    rw [TidyParams] at h
    rw [paramComments, printParams]
    refine (emits_type depth type h.1).bind fun _ text htype => (emits_params depth rest h.2).map fun _ texts
      hrest => ?_
    refine ⟨.cons ?_ hrest.1, congrArg Nat.succ hrest.2⟩
    cases name with
    | none => exact htype
    | some name => exact htype.behind _

theorem emits_fieldRows (depth : Nat) : ∀ items : List (Item Field), TidyFields docs items →
    Emits docs (Along ItemHolds) (fieldComments items) (fieldRows settings numbers depth items)
  | [], _ => by
    rw [fieldComments, fieldRows]
    exact emits_pure .nil
  | .gap n :: rest, h => by
    rw [TidyFields] at h
    rw [fieldComments, fieldRows]
    exact emits_gap (emits_fieldRows depth rest h)
  | .comment t :: rest, h => by
    rw [TidyFields] at h
    rw [fieldComments, fieldRows]
    exact emits_comment (emits_fieldRows depth rest h)
  | .entry ⟨range, doc, names, type, tag, trailing⟩ :: rest, h => by
    rw [TidyFields] at h
    rw [fieldComments, fieldRows, List.append_assoc, List.append_assoc]
    refine (emits_docText h.1).bind fun ds docTexts hd => ?_
    refine (emits_type depth type h.2.1).bind fun cs text htype => ?_
    refine (emits_carryTrailing trailing).bind fun es texts htrail => ?_
    refine (emits_fieldRows depth rest h.2.2).map fun rs rows hrows => ?_
    simpa using Along.cons (rowHolds hd (along_cells _ htype _ htrail)) hrows

theorem emits_methodRows (depth : Nat) : ∀ items : List (Item Method), TidyMethods docs items →
    Emits docs (Along ItemHolds) (methodComments items) (methodRows settings numbers depth items)
  | [], _ => by
    rw [methodComments, methodRows]
    exact emits_pure .nil
  | .gap n :: rest, h => by
    rw [TidyMethods] at h
    rw [methodComments, methodRows]
    exact emits_gap (emits_methodRows depth rest h)
  | .comment t :: rest, h => by
    rw [TidyMethods] at h
    rw [methodComments, methodRows]
    exact emits_comment (emits_methodRows depth rest h)
  | .entry ⟨range, doc, name, signature, trailing⟩ :: rest, h => by
    rw [TidyMethods] at h
    rw [methodComments, methodRows, List.append_assoc, List.append_assoc]
    refine (emits_docText h.1).bind fun ds docTexts hd => ?_
    refine (emits_signature depth signature h.2.1).bind fun cs text htype => ?_
    refine (emits_carryTrailing trailing).bind fun es texts htrail => ?_
    refine (emits_methodRows depth rest h.2.2).map fun rs rows hrows => ?_
    simpa using Along.cons (rowHolds hd (.cons (htype.behind name.text) htrail)) hrows

end

/-! ## Declarations -/

omit settings numbers in
theorem emits_specRows {α : Type} {row : α → Printer Row} {ofSpec : α → List Token} : ∀ items : List (Item α),
    (∀ spec ∈ entries items, Emits docs RowHolds (ofSpec spec) (row spec)) →
      Emits docs (Along ItemHolds) (itemComments ofSpec items) (specRows row items)
  | [], _ => emits_pure .nil
  | .gap n :: rest, h => emits_gap (emits_specRows rest h)
  | .comment t :: rest, h => emits_comment (emits_specRows rest h)
  | .entry spec :: rest, h => by
    have hrest := emits_specRows rest fun spec hspec => h spec (List.mem_cons_of_mem _ hspec)
    exact (h spec List.mem_cons_self).bind fun _ _ hrow => hrest.map fun _ _ hrows => .cons hrow hrows

omit settings numbers in
/-- Lines below a doc. -/
theorem holds_below {cs ds : List String} {doc : List String} {text : String} (hdoc : Along Holds cs doc)
    (h : Holds ds text) :
    Holds (cs ++ ds) ("\n".intercalate (doc ++ [text])) :=
  (hdoc.append (.single h)).intercalate "\n"

omit settings numbers in
theorem emits_decl {α : Type} {keyword : String} {row : α → Printer Row} {single : α → Printer String}
    {ofRow ofSingle : α → List Token} {d : Decl α} (hdoc : ∀ doc ∈ d.doc, doc ∈ docs)
    (hrow : ∀ spec ∈ d.specs, Emits docs RowHolds (ofRow spec) (row spec))
    (hsingle : d.grouped = false → ∀ spec ∈ d.specs, Emits docs Holds (ofSingle spec) (single spec)) :
    Emits docs Holds (d.comments ofRow ofSingle) (declText keyword row single d) := by
  rw [Decl.comments, declText]
  refine (emits_docText hdoc).bind fun cs doc hd => ?_
  cases hgrouped : d.grouped with
  | true =>
    refine (emits_specRows _ hrow).bind fun ds rows hrows => ?_
    refine (emits_lineWithTrailing (.nil ")") d.trailing).map fun es closing hclosing => ?_
    exact holds_below hd (holds_groupText keyword hrows hclosing)
  | false =>
    have hone := hsingle hgrouped
    cases hspecs : d.specs with
    | nil => exact emits_pure (by simpa using hd.intercalate "\n")
    | cons spec specs =>
      rw [hspecs] at hone
      exact (hone spec List.mem_cons_self).map fun _ _ h => holds_below hd h

omit settings numbers in
theorem emits_importRow {spec : ImportSpec} (h : spec.Tidy docs) :
    Emits docs RowHolds spec.comments (importRow spec) :=
  (emits_docText h).bind fun cs _ hd => (emits_carryTrailing spec.trailing).map fun ds _ htrail =>
    ⟨cs, ds, rfl, hd, .skip (.nil _) htrail⟩

theorem emits_typeRow {spec : TypeSpec} (h : spec.Tidy docs) :
    Emits docs RowHolds spec.comments (typeRow settings numbers spec) := by
  refine (emits_docText h.1).bind fun cs _ hd => (emits_type settings numbers 1 spec.type h.2).bind fun ds _
    htype => ?_
  refine (emits_carryTrailing spec.trailing).map fun es _ htrail => ⟨cs, ds ++ es, rfl, hd, ?_⟩
  exact .skip (.nil _) (.cons htype htrail)

theorem emits_constRow (depth : Nat) {spec : ConstSpec} (h : spec.Tidy docs) :
    Emits docs (fun cs row => RowHolds cs row ∧ (spec.doc = none → row.doc = [])) spec.comments
      (constRow settings numbers depth spec) := by
  have hdoc : Emits docs (fun cs doc => Along Holds cs doc ∧ (spec.doc = none → doc = [])) (docComments spec.doc)
      (docText spec.doc) := by
    cases hspec : spec.doc with
    | none => exact emits_pure ⟨.nil, fun _ => rfl⟩
    | some d => exact (emits_docText (hspec ▸ h.1)).mono fun _ _ hd => ⟨hd, nofun⟩
  refine hdoc.bind fun cs doc hd => ?_
  have hrow (ds type : List String) (htype : Along Holds ds type) :
      Emits docs (fun es row => RowHolds (cs ++ (ds ++ es)) row ∧
        (spec.doc = none → row.doc = [])) spec.trailing.toList do
        let value := if spec.value.isMissing then [] else ["= " ++ exprText depth "\t" spec.value]
        return ⟨doc, spec.name.text :: type ++ value ++ (← carryTrailing spec.trailing)⟩ := by
    refine (emits_carryTrailing spec.trailing).map fun es trailing htrail => ⟨⟨cs, ds ++ es, rfl, hd.1, ?_⟩, hd.2⟩
    have hvalue :=
      htype.append (along_unwritten (if spec.value.isMissing then [] else ["= " ++ exprText depth "\t" spec.value]))
    rw [List.append_nil] at hvalue
    exact .skip (.nil _) (hvalue.append htrail)
  extract_lets row
  split
  · rename_i hmissing
    have hnone : spec.type.comments = [] := by
      cases htype : spec.type with
      | missing => rw [TypeExpr.comments]
      | _ => rw [htype] at hmissing; cases hmissing
    rw [hnone]
    exact hrow [] [] .nil
  · exact (emits_type settings numbers depth spec.type h.2).bind fun ds text htext => hrow ds [text] (.single htext)

theorem emits_topLevel : ∀ d : TopLevel, d.Tidy docs → Emits docs Holds d.comments (topLevelText settings numbers d)
  | .package clause, h => by
    refine (emits_docText h).bind fun _ _ hd => ?_
    exact (emits_lineWithTrailing (.nil _) clause.trailing).map fun _ _ hline => holds_below hd hline
  | .imports d, h => emits_decl h.doc (fun spec hspec => emits_importRow (h.specs spec hspec))
      fun _ spec _ => emits_lineWithTrailing (.nil _) _
  | .types d, h => by
    refine emits_decl h.doc (fun spec hspec => emits_typeRow settings numbers (h.specs spec hspec))
      fun _ spec hspec => ?_
    refine (emits_type settings numbers 0 spec.type (h.specs spec hspec).2).bind fun _ _ htype => ?_
    exact emits_lineWithTrailing (htype.behind _) _
  | .consts d, h => by
    refine emits_decl h.doc (fun spec hspec => ?_) fun hgrouped spec hspec => ?_
    · exact (emits_constRow settings numbers 1 (h.specs spec hspec).1).mono fun _ _ hrow => hrow.1
    · obtain ⟨htidy, hbare⟩ := h.specs spec hspec
      refine (emits_constRow settings numbers 0 htidy).bind fun cs row hrow => ?_
      obtain ⟨⟨ds, es, rfl, hd, hcells⟩, hdoc⟩ := hrow
      rw [hdoc (hbare hgrouped)] at hd
      rw [hd.eq_nil]
      exact emits_lineWithTrailing ((hcells.intercalate " ").behind "const ") d.trailing

/-! ## Files -/

theorem emits_blocks : ∀ (items : List (Item TopLevel)) (first : Bool) (newlines : Nat),
    (∀ d ∈ entries items, d.Tidy docs) →
      Emits docs Holds (itemComments TopLevel.comments items) (blocksText settings numbers first newlines items)
  | [], _, _, _ => emits_pure (.nil _)
  | .gap n :: rest, first, newlines, h => emits_blocks rest first (newlines + n) h
  | .comment t :: rest, first, newlines, h => by
    refine (emits_carry t).bind fun cs block hblock => ?_
    refine (emits_blocks rest false 0 h).map fun ds text htext => ?_
    rw [hblock.1]
    exact ((holds_self block).behind _).append htext
  | .entry d :: rest, first, newlines, h => by
    refine (emits_topLevel settings numbers d (h d List.mem_cons_self)).bind fun cs block hblock => ?_
    have hrest := emits_blocks rest false 0 fun d hd => h d (List.mem_cons_of_mem _ hd)
    exact hrest.map fun ds text htext => (hblock.behind _).append htext

end

end

section
open Grammar

variable {settings : FormatSettings} {text : String}

/-- A printed file carries comments of the text, each of them once. -/
theorem emits_file (settings : FormatSettings) (numbers : Assignments) (text : String) :
    ∃ ts : List Token, ts.Subperm (comments (parse text).tree) ∧ Emits ((parse text).tree.docs.map Prod.snd) Holds ts
      (blocksText settings numbers true 0 (parse text).file.items) :=
  ⟨_, subperm_file (parse_formed text), emits_blocks settings numbers _ true 0 (tidy_file (parse_formed text))⟩

theorem nodup_comments (text : String) : (comments (parse text).tree).Nodup := by
  have hleaves : (parse text).tree.leaves = Token.tokenize text :=
    (run_covers _ sourceFile_conserves sourceFile_rest text).leaves
  rw [comments, hleaves]
  refine List.Nodup.sublist List.filter_sublist ((Token.sorted_tokenize text).imp fun hlt heq => ?_)
  exact absurd (congrArg Token.offset heq) (Nat.ne_of_lt hlt)

theorem exists_of_formatTree {tree : Tree} {out : String} (h : formatTree settings tree = .ok out) :
    ∃ numbers carried, fileText settings numbers (.ofTree tree) = .ok (out, carried) ∧
      carried.length = (comments tree).length := by
  rw [formatTree] at h
  split at h
  · cases h
  · obtain ⟨numbers, -, h⟩ := bind_eq_ok.mp h
    obtain ⟨⟨text, carried⟩, hfile, h⟩ := bind_eq_ok.mp h
    refine ⟨numbers, carried, ?_⟩
    by_cases hlen : carried.length = (comments tree).length
    · simp only [if_pos hlen] at h
      cases h
      exact ⟨hfile, hlen⟩
    · simp only [if_neg hlen] at h
      cases h

/-- A file that is printed has all its comments written. -/
theorem exists_rendered {out : String} (h : formatTree settings (parse text).tree = .ok out) :
    ∃ ts cs, List.Perm ts (comments (parse text).tree) ∧ Rendered ((parse text).tree.docs.map Prod.snd) ts cs ∧
      Holds cs out := by
  obtain ⟨numbers, carried, hrun, hlen⟩ := exists_of_formatTree h
  obtain ⟨ts, hsub, hemits⟩ := emits_file settings numbers text
  obtain ⟨hcarried, cs, hcs, hout⟩ := hemits [] out carried hrun
  rw [List.append_nil] at hcarried
  have hall : (comments (parse text).tree).length ≤ ts.length := by
    rw [← hlen, hcarried, List.length_reverse]
  exact ⟨ts, cs, hsub.perm_of_length_le hall, hcs, hout⟩

/-- The comments that a printed file is counted to carry are different comments of the text. Where they are as many
as the text has, none is missing: something is written for every comment, one behind the other. -/
theorem comments_carried_once (settings : FormatSettings) (text : String) :
    (∀ numbers out carried, fileText settings numbers (parse text).file = .ok (out, carried) →
      carried.Nodup ∧ carried ⊆ comments (parse text).tree) ∧
    ∀ out, formatTree settings (parse text).tree = .ok out →
      ∃ ts cs, List.Perm ts (comments (parse text).tree) ∧ Rendered ((parse text).tree.docs.map Prod.snd) ts cs ∧
        Holds cs out := by
  refine ⟨fun numbers out carried hrun => ?_, fun out => exists_rendered⟩
  obtain ⟨ts, hsub, hemits⟩ := emits_file settings numbers text
  obtain ⟨hcarried, -⟩ := hemits [] out carried hrun
  rw [List.append_nil] at hcarried
  have hperm : carried.Perm ts := hcarried ▸ List.reverse_perm ts
  obtain ⟨us, hus, hsublist⟩ := hsub
  exact ⟨hperm.nodup_iff.mpr (hus.nodup_iff.mp ((nodup_comments text).sublist hsublist)),
    fun t ht => hsublist.subset (hus.symm.subset (hperm.subset ht))⟩

/-- Comments behind the package clause, on their own, in docs, behind a field and at the end of a body. -/
def commentedText : String :=
  "package a // clause\n// alone\n\n// doc\ntype T struct \x7b\n// field\nA int // behind\n  // last\n\x7d\n"

def commentedOut : String :=
  "package a // clause\n// alone\n\n// doc\n" ++
    "type T struct \x7b\n\t// field\n\tA int `pb:\"1\"` // behind\n\t// last\n\x7d\n"

theorem comments_carried_once_sample :
    (comments (parse commentedText).tree).map Token.text =
      ["// clause", "// alone", "// doc", "// field", "// behind", "// last"] ∧
    ∃ ts cs, List.Perm ts (comments (parse commentedText).tree) ∧
      Rendered ((parse commentedText).tree.docs.map Prod.snd) ts cs ∧ Holds cs commentedOut :=
  ⟨by decide +kernel, (comments_carried_once {} commentedText).2 _ (ok_of_toOption (by decide +kernel))⟩

/-- Without tags in its docs, a text keeps all its comments as they are. -/
theorem comments_kept {out : String} (h : formatTree settings (parse text).tree = .ok out)
    (htags : (parse text).tree.tags = []) :
    ∃ ts, List.Perm ts (comments (parse text).tree) ∧ Holds (ts.map commentText) out := by
  obtain ⟨ts, cs, hperm, hcs, hout⟩ := exists_rendered h
  refine ⟨ts, hperm, ?_⟩
  rw [← hcs.eq_map fun d hd => ?_]
  · exact hout
  · obtain ⟨⟨owner, doc⟩, hmem, rfl⟩ := List.mem_map.mp hd
    have hnone := List.filterMap_eq_nil_iff.mp htags _ hmem
    simpa [DocParts.parsedTags] using hnone

end

end IdlWorkbench.Format
