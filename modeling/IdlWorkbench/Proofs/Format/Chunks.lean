import IdlWorkbench.Format.File

/-!
# Chunks of printed texts

`Holds chunks text` says that the chunks stand in the text one behind the other. Padding, alignment and indentation
put characters between the chunks of a row, but never break one and never change their order.
-/

namespace IdlWorkbench.Format

/-- The chunks stand in the text, one behind the other. -/
inductive Holds : List String → String → Prop
  | nil (text : String) : Holds [] text
  | cons {chunk rest : String} {chunks : List String} (before : String) : Holds chunks rest →
    Holds (chunk :: chunks) (before ++ (chunk ++ rest))

section
variable {cs ds : List String} {s t : String}

theorem Holds.behind (before : String) (h : Holds cs s) : Holds cs (before ++ s) := by
  cases h with
  | nil => exact .nil _
  | cons b h =>
    rw [← String.append_assoc]
    exact .cons _ h

theorem Holds.append (h : Holds cs s) (h' : Holds ds t) : Holds (cs ++ ds) (s ++ t) := by
  induction h with
  | nil text => exact h'.behind text
  | cons before _ ih =>
    rw [String.append_assoc, String.append_assoc]
    exact .cons before ih

theorem Holds.before (h : Holds cs s) (t : String) : Holds cs (s ++ t) := by
  simpa using h.append (.nil t)

theorem holds_self (s : String) : Holds [s] s := by
  have h : Holds [s] ("" ++ (s ++ "")) := .cons "" (.nil "")
  simpa using h

end

/-! ## Lists -/

inductive Along {α : Type} (P : List String → α → Prop) : List String → List α → Prop
  | nil : Along P [] []
  | cons {cs ds : List String} {a : α} {as : List α} : P cs a → Along P ds as → Along P (cs ++ ds) (a :: as)

section
variable {α β : Type} {P : List String → α → Prop} {Q : List String → β → Prop} {cs ds : List String}

theorem Along.single {a : α} (h : P cs a) : Along P cs [a] := by
  simpa using Along.cons h .nil

/-- An element that has none of the chunks. -/
theorem Along.skip {a : α} {as : List α} (ha : P [] a) (h : Along P cs as) : Along P cs (a :: as) := .cons ha h

theorem Along.append {as bs : List α} (h : Along P cs as) (h' : Along P ds bs) : Along P (cs ++ ds) (as ++ bs) := by
  induction h with
  | nil => exact h'
  | cons h _ ih =>
    rw [List.append_assoc]
    exact .cons h ih

theorem Along.map {as : List α} {f : α → β} (h : Along P cs as) (hf : ∀ cs a, P cs a → Q cs (f a)) :
    Along Q cs (as.map f) := by
  induction h with
  | nil => exact .nil
  | cons h _ ih => exact .cons (hf _ _ h) ih

theorem Along.eq_nil (h : Along P cs []) : cs = [] := by
  cases h
  rfl

end

section
variable {cs ds : List String} {texts : List String}

theorem Along.indent (indent : String) (h : Along Holds cs texts) : Along Holds cs (texts.map (indent ++ ·)) :=
  h.map fun _ _ h => h.behind indent

theorem along_self : ∀ texts : List String, Along Holds texts texts
  | [] => .nil
  | text :: texts => .cons (holds_self text) (along_self texts)

theorem along_unwritten : ∀ texts : List String, Along Holds [] texts
  | [] => .nil
  | text :: texts => .skip (.nil text) (along_unwritten texts)

/-- Some cells of a row have none of the chunks. -/
theorem along_cells {text : String} (before : List String) (h : Holds cs text) (after : List String)
    (htexts : Along Holds ds texts) : Along Holds (cs ++ ds) (before ++ text :: after ++ texts) := by
  simpa using ((along_unwritten before).append (.cons h (along_unwritten after))).append htexts

theorem Along.intercalate (sep : String) (h : Along Holds cs texts) : Holds cs (sep.intercalate texts) := by
  induction h with
  | nil => exact .nil _
  | cons h hrest ih =>
    rename_i texts
    cases texts with
    | nil =>
      rw [hrest.eq_nil, List.append_nil, String.intercalate_singleton]
      exact h
    | cons text texts =>
      rw [String.intercalate_cons_cons]
      exact (h.before sep).append ih

/-- The cells of a row, however wide the columns are. -/
theorem holds_cellsText (width : Nat → Nat) {cells : List String} (h : Along Holds cs cells) :
    ∀ column, Holds cs (cellsText width column cells) := by
  induction h with
  | nil => exact fun _ => .nil _
  | cons h hrest ih =>
    rename_i cells
    intro column
    cases cells with
    | nil =>
      rw [hrest.eq_nil, List.append_nil, cellsText]
      exact h
    | cons cell cells =>
      unfold cellsText
      exact ((h.before _).before _).append (ih _)

end

/-! ## Blocks -/

/-- The chunks of a row: those of its doc, then those of its cells. -/
def RowHolds (cs : List String) (row : Row) : Prop :=
  ∃ ds es, cs = ds ++ es ∧ Along Holds ds row.doc ∧ Along Holds es row.cells

def ItemHolds (cs : List String) : Item Row → Prop
  | .gap _ => cs = []
  | .comment t => cs = [commentText t]
  | .entry row => RowHolds cs row

def EntryHolds (cs : List String) : Entry → Prop
  | .comment _ text => Holds cs text
  | .row _ row => RowHolds cs row

section
variable {cs ds : List String}

theorem along_entriesFrom {items : List (Item Row)} (h : Along ItemHolds cs items) :
    ∀ first newlines, Along EntryHolds cs (entriesFrom first newlines items) := by
  induction h with
  | nil => exact fun _ _ => .nil
  | cons h hrest ih =>
    rename_i item items
    intro first newlines
    cases item with
    | gap n =>
      obtain rfl := h
      exact ih _ _
    | comment t =>
      obtain rfl := h
      exact .cons (holds_self _) (ih _ _)
    | entry row => exact .cons h (ih _ _)

/-- A section is written before what comes next, so the order stays. -/
theorem along_blockLines (indent : String) {entries : List Entry} (h : Along EntryHolds cs entries) :
    ∀ (rows : List (List String)) {ds : List String}, Along (Along Holds) ds rows.reverse →
      Along Holds (ds ++ cs) (blockLines indent rows entries) := by
  have hsection {rows : List (List String)} {ds : List String} (hrows : Along (Along Holds) ds rows.reverse) :
      Along Holds ds (sectionLines indent rows.reverse) :=
    hrows.map fun _ _ h => (holds_cellsText _ h 0).behind indent
  have hblank (blank : Bool) : Along Holds [] (blankLine blank) := by
    cases blank with
    | false => exact .nil
    | true => exact .single (.nil _)
  induction h with
  | nil =>
    intro rows ds hrows
    rw [blockLines, List.append_nil]
    exact hsection hrows
  | cons h hrest ih =>
    rename_i cs cs' entry entries
    intro rows ds hrows
    cases entry with
    | comment blank text =>
      rw [blockLines]
      have hline := Along.cons (Holds.behind indent h) (ih [] .nil)
      simpa using ((hsection hrows).append (hblank blank)).append hline
    | row blank row =>
      obtain ⟨docs, cells, rfl, hdocs, hcells⟩ := h
      rw [blockLines]
      split
      · have habove := ((hsection hrows).append (hblank blank)).append (hdocs.indent indent)
        split
        · have hline := Along.cons ((hcells.intercalate " ").behind indent) (ih [] .nil)
          simpa using habove.append hline
        · simpa using habove.append (ih [row.cells] (.single hcells))
      · rename_i hplain
        simp only [Bool.or_eq_true, Bool.not_eq_true', not_or, Bool.not_eq_false, List.isEmpty_iff] at hplain
        rw [hplain.1.2] at hdocs
        rw [hdocs.eq_nil, List.nil_append, ← List.append_assoc]
        refine ih _ ?_
        rw [List.reverse_cons]
        exact hrows.append (.single hcells)

theorem along_block {items : List (Item Row)} (h : Along ItemHolds cs items) (depth : Nat) :
    Holds cs (blockText depth (entriesFrom true 0 items)) := by
  have hlines := along_blockLines (repeatText depth "\t") (along_entriesFrom h true 0) [] .nil
  exact hlines.intercalate "\n"

theorem holds_bracedText (keyword : String) (depth : Nat) {items : List (Item Row)} (h : Along ItemHolds cs items) :
    Holds cs (bracedText keyword depth items) := by
  rw [bracedText]
  split
  · rename_i hempty
    have hentries := along_entriesFrom h true 0
    rw [List.isEmpty_iff.mp hempty] at hentries
    rw [hentries.eq_nil]
    exact .nil _
  · exact ((((along_block h _).behind _).before _).before _).before _

theorem holds_groupText (keyword : String) {items : List (Item Row)} {closing : String}
    (h : Along ItemHolds cs items)
    (hclosing : Holds ds closing) : Holds (cs ++ ds) (groupText keyword items closing) := by
  rw [groupText]
  split
  · rename_i hempty
    have hentries := along_entriesFrom h true 0
    rw [List.isEmpty_iff.mp hempty] at hentries
    rw [hentries.eq_nil]
    exact hclosing.behind _
  · exact (((along_block h _).before _).behind _).append hclosing

def Allows : ResultForm → Nat → Prop
  | .absent, n => n = 0
  | .bare, n => n ≤ 1
  | .parens, _ => True

theorem holds_signatureText {params results : List String} {form : ResultForm} (hp : Along Holds cs params)
    (hr : Along Holds ds results) (hform : Allows form results.length) :
    Holds (cs ++ ds) (signatureText params form results) := by
  have hparams : Holds cs ("(" ++ ", ".intercalate params ++ ")") := ((hp.intercalate ", ").behind "(").before ")"
  unfold signatureText
  refine hparams.append ?_
  cases form with
  | absent =>
    rw [List.eq_nil_of_length_eq_zero hform] at hr
    rw [hr.eq_nil]
    exact .nil _
  | parens => exact ((hr.intercalate ", ").behind _).before _
  | bare =>
    cases hr with
    | nil => exact .nil _
    | cons h hrest =>
      rw [List.eq_nil_of_length_eq_zero (Nat.le_zero.mp (Nat.le_of_succ_le_succ hform))] at hrest
      rw [hrest.eq_nil, List.append_nil]
      exact h.behind " "

end

end IdlWorkbench.Format
