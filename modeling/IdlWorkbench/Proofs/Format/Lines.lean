import IdlWorkbench.Doc.Tag
import IdlWorkbench.Proofs.Format.Expr

/-!
# Lines of printed expressions

The lines of a printed tag become comments of their own: blanks at the end of a line are cut off, and a line that
starts with the marker would begin another tag. `Hemmed` says that neither can happen to a text, whatever is written
behind it. Printed expressions are hemmed if their tokens are.
-/

namespace IdlWorkbench.Format

open Token Grammar

variable {cs ds u v w pad : List Char}

def tagLead : List Char := (tagMarker ++ " ").toList

/-! ## Lines that begin no tag -/

/-- However it goes on, the text does not start as a tag does. -/
def Apart (cs : List Char) : Prop := ¬tagLead <+: cs ∧ ¬cs <+: tagLead

theorem Apart.append (h : Apart cs) (ds : List Char) : Apart (cs ++ ds) := by
  refine ⟨fun hlead => ?_, fun hlead => h.2 ((List.prefix_append cs ds).trans hlead)⟩
  rcases List.prefix_or_prefix_of_prefix hlead (List.prefix_append cs ds) with h' | h'
  · exact h.1 h'
  · exact h.2 h'

theorem apart_cons {c : Char} (hc : c ≠ '+') (cs : List Char) : Apart (c :: cs) := by
  constructor <;> intro h
  · exact hc (List.cons_prefix_cons.mp (h : '+' :: "gunk ".toList <+: c :: cs)).1.symm
  · exact hc (List.cons_prefix_cons.mp (h : c :: cs <+: '+' :: "gunk ".toList)).1

theorem apart_pad (hpad : ∀ c ∈ pad, c = ' ') (h : pad ≠ [] ∨ ∃ c cs, w = c :: cs ∧ c ≠ '+') : Apart (pad ++ w) := by
  cases pad with
  | nil =>
    obtain ⟨c, cs, rfl, hc⟩ := h.resolve_left fun hne => hne rfl
    exact apart_cons hc cs
  | cons c pad =>
    rw [hpad c List.mem_cons_self]
    exact apart_cons (by decide) _

/-! ## Hemmed texts -/

/-- No line ends in a blank, and none below a line break begins a tag. -/
structure Hemmed (w : List Char) : Prop where
  head : ∃ c cs, w = c :: cs ∧ c ≠ '\n'
  last : ∃ cs c, w = cs ++ [c] ∧ Text.isBlank c = false
  flush : w.IsChain fun c d => d = '\n' → c = '\n' ∨ Text.isBlank c = false
  apart : ∀ below, '\n' :: below <:+ w → Apart below

theorem hemmed_char {c : Char} (h : Text.isBlank c = false) : Hemmed [c] where
  head := ⟨c, [], rfl, fun hc => by rw [hc] at h; cases h⟩
  last := ⟨[], c, rfl, h⟩
  flush := .singleton c
  apart below hb := by
    obtain ⟨rfl, -⟩ : '\n' = c ∧ below = [] := by simpa using (List.suffix_cons_iff.mp hb)
    cases h

/-- A line break in two texts stands in the first or in the second. -/
theorem suffix_of_suffix_append {c : Char} (h : c :: cs <:+ u ++ v) :
    (∃ ds, cs = ds ++ v ∧ c :: ds <:+ u) ∨ c :: cs <:+ v := by
  obtain ⟨before, h⟩ := h
  rcases List.append_eq_append_iff.mp h with ⟨ds, rfl, hds⟩ | ⟨ds, -, rfl⟩
  · cases ds with
    | nil =>
      obtain rfl : c :: cs = v := hds
      exact Or.inr List.suffix_rfl
    | cons d ds =>
      obtain ⟨rfl, rfl⟩ := List.cons.inj hds
      exact Or.inl ⟨ds, rfl, List.suffix_append _ _⟩
  · exact Or.inr (List.suffix_append _ _)

theorem Hemmed.append (hu : Hemmed u) (hv : Hemmed v) : Hemmed (u ++ v) where
  head := by
    obtain ⟨c, cs, rfl, hc⟩ := hu.head
    exact ⟨c, cs ++ v, List.cons_append, hc⟩
  last := by
    obtain ⟨cs, c, rfl, hc⟩ := hv.last
    exact ⟨u ++ cs, c, by rw [List.append_assoc], hc⟩
  flush := by
    obtain ⟨cs, c, rfl, hc⟩ := hu.last
    refine List.isChain_append.mpr ⟨hu.flush, hv.flush, fun d hd _ _ _ => Or.inr ?_⟩
    obtain rfl : c = d := by simpa using hd
    exact hc
  apart below h := by
    rcases suffix_of_suffix_append h with ⟨ds, rfl, hds⟩ | h
    · exact (hu.apart ds hds).append v
    · exact hv.apart below h

/-- Blanks in front of a hemmed text. -/
theorem Hemmed.behind (h : Hemmed w) (hpad : ∀ c ∈ pad, c = ' ') : Hemmed (pad ++ w) where
  head := by
    cases pad with
    | nil => exact h.head
    | cons c pad => exact ⟨c, pad ++ w, rfl, fun hc => absurd (hpad c List.mem_cons_self) (by rw [hc]; decide)⟩
  last := by
    obtain ⟨cs, c, rfl, hc⟩ := h.last
    exact ⟨pad ++ cs, c, by rw [List.append_assoc], hc⟩
  flush := by
    obtain ⟨c, cs, rfl, hc⟩ := h.head
    have hblanks : pad.IsChain fun c d => d = '\n' → c = '\n' ∨ Text.isBlank c = false := by
      refine List.Pairwise.isChain (List.pairwise_of_forall_mem_list fun _ _ d hd hn => ?_)
      exact absurd (hpad d hd) (by rw [hn]; decide)
    refine List.isChain_append.mpr ⟨hblanks, h.flush, fun _ _ d hd hn => ?_⟩
    obtain rfl : c = d := by simpa using hd
    exact absurd hn hc
  apart below hb := by
    rcases suffix_of_suffix_append hb with ⟨ds, -, hds⟩ | hb
    · exact absurd (hpad '\n' (hds.subset (by simp))) (by decide)
    · exact h.apart below hb

theorem blank_singleton : ∀ c ∈ [' '], c = ' ' := List.forall_mem_singleton.mpr rfl

/-- A hemmed text below another one. -/
theorem Hemmed.below (hu : Hemmed u) (hv : Hemmed v) (ha : Apart v) : Hemmed (u ++ '\n' :: v) where
  head := by
    obtain ⟨c, cs, rfl, hc⟩ := hu.head
    exact ⟨c, cs ++ '\n' :: v, List.cons_append, hc⟩
  last := by
    obtain ⟨cs, c, rfl, hc⟩ := hv.last
    exact ⟨u ++ '\n' :: cs, c, by simp, hc⟩
  flush := by
    obtain ⟨cs, c, rfl, hc⟩ := hu.last
    obtain ⟨d, ds, rfl, hd⟩ := hv.head
    refine List.isChain_append.mpr ⟨hu.flush, .cons_cons (fun hn => absurd hn hd) hv.flush, fun e he _ _ _ =>
      Or.inr ?_⟩
    obtain rfl : c = e := by simpa using he
    exact hc
  apart below h := by
    rcases suffix_of_suffix_append h with ⟨ds, rfl, hds⟩ | h
    · exact (hu.apart ds hds).append _
    · rcases List.suffix_cons_iff.mp h with h | h
      · rwa [(List.cons.inj h).2]
      · exact hv.apart below h

/-! ## Tokens and types -/

def AllHemmed (ts : List Token) : Prop := ∀ t ∈ ts, t.kind ≠ .error → Hemmed t.text.toList

theorem AllHemmed.mono {ts us : List Token} (h : AllHemmed ts) (hus : us ⊆ ts) : AllHemmed us :=
  fun t ht => h t (hus ht)

mutual

theorem hemmed_litType : ∀ {ts : List Token} {t : TypeExpr},
    IsLitType ts t → AllHemmed ts → Hemmed (typeText ts).toList
  | _, _, @IsLitType.name id hid, h => by
    rw [toList_typeText_cons (by simp [hid]), typeText_nil, List.append_nil]
    exact h id (by simp) (by simp [hid])
  | _, _, @IsLitType.selector q dot id hq hdot hid, h => by
    rw [toList_typeText_cons (by simp [hq]), toList_typeText_cons (by simp [hdot]),
      toList_typeText_cons (by simp [hid]),
      typeText_nil, List.append_nil]
    exact (h q (by simp) (by simp [hq])).append
      ((h dot (by simp) (by simp [hdot])).append (h id (by simp) (by simp [hid])))
  | _, _, @IsLitType.slice l r _ _ hl hr ht, h => by
    rw [toList_typeText_cons (by simp [hl]), toList_typeText_cons (by simp [hr])]
    exact (h l (by simp) (by simp [hl])).append
      ((h r (by simp) (by simp [hr])).append (hemmed_type ht (h.mono (by simp))))
  | _, _, @IsLitType.map m l r _ _ _ _ hm hl hk hr hv, h => by
    rw [toList_typeText_cons (by simp [hm]), toList_typeText_cons (by simp [hl]), toList_typeText_append,
      toList_typeText_cons (by simp [hr])]
    have hkey := hemmed_type hk (h.mono fun _ ht => by simp [ht])
    have hvalue := hemmed_type hv (h.mono fun _ ht => by simp [ht])
    exact (h m (by simp) (by simp [hm])).append
      ((h l (by simp) (by simp [hl])).append (hkey.append ((h r (by simp) (by simp [hr])).append hvalue)))

theorem hemmed_type : ∀ {ts : List Token} {t : TypeExpr}, IsType ts t → AllHemmed ts → Hemmed (typeText ts).toList
  | _, _, .lit ht, h => hemmed_litType ht h
  | _, _, @IsType.pointer star _ _ hstar ht, h => by
    rw [toList_typeText_cons (by simp [hstar])]
    exact (h star (by simp) (by simp [hstar])).append (hemmed_type ht (h.mono (by simp)))
  | _, _, @IsType.chan kw _ _ hkw ht, h => by
    have helem := (hemmed_type ht (h.mono (by simp))).behind blank_singleton
    rw [toList_typeText, List.flatMap_cons, if_pos hkw, ← toList_typeText, List.append_assoc]
    exact (h kw (by simp) (by simp [hkw])).append helem

end

/-! ## Expressions -/

section
variable {unit : String} (hunit : ∀ c ∈ unit.toList, c = ' ')
include hunit

theorem eq_of_mem_indent (n : Nat) : ∀ c ∈ (repeatText n unit).toList, c = ' ' :=
  fun c hc => hunit c (mem_repeatText hc)

/-- Elements on lines of their own. -/
theorem hemmed_lines {n : Nat} (hne : (repeatText n unit).toList ≠ []) {els : List ElementText} {lines : List String}
    (hlines : List.Forall₂ (IsLine (repeatText n unit)) els lines)
    (hels : ∀ el ∈ els, ∀ w, Spells w el → Hemmed w) : ∀ {u : List Char}, Hemmed u →
    Hemmed (u ++ (lines.map String.toList).flatMap ('\n' :: ·)) := by
  induction hlines with
  | nil => exact fun hu => by simpa using hu
  | cons h _ ih =>
    intro u hu
    obtain ⟨w, hw, hline⟩ := h
    have hword := (hels _ List.mem_cons_self w hw).append (hemmed_char (c := ',') (by decide))
    have hbelow := hu.below (hword.behind (eq_of_mem_indent hunit n))
      (apart_pad (eq_of_mem_indent hunit n) (Or.inl hne))
    rw [← hline] at hbelow
    have := ih (fun el hel => hels el (List.mem_cons_of_mem _ hel)) hbelow
    simpa using this

theorem hemmed_spreadBody (hne : unit ≠ "") (depth : Nat) {els : List ElementText}
    (hels : ∀ el ∈ els, ∀ w, Spells w el → Hemmed w) : Hemmed (bodyText true depth unit els).toList := by
  have hopen : Hemmed ['\x7b'] := hemmed_char (by decide)
  have hclose : Hemmed ['\x7d'] := hemmed_char (by decide)
  cases els with
  | nil => simpa [bodyText] using hopen.append hclose
  | cons el els =>
    have hindent : (repeatText (depth + 1) unit).toList ≠ [] := by
      simpa [repeatText, List.replicate_succ] using fun h => absurd h hne
    have hlines := isLine_elements (repeatText (depth + 1) unit) (el :: els) []
    have hne : (elementLines (repeatText (depth + 1) unit) [] (el :: els)).map String.toList ≠ [] := by
      intro hnil
      rw [List.map_eq_nil_iff] at hnil
      rw [hnil] at hlines
      cases hlines
    have helements := hemmed_lines hunit hindent hlines hels hopen
    have hbody := helements.below (hclose.behind (eq_of_mem_indent hunit depth))
      (apart_pad (eq_of_mem_indent hunit depth) (Or.inr ⟨'\x7d', [], rfl, by decide⟩))
    rw [← lines_eq hne] at hbody
    simpa [bodyText] using hbody

omit hunit in
theorem hemmed_inline {sep : List Char} (hsep : ∀ {v : List Char}, Hemmed v → Hemmed (sep ++ v)) :
    ∀ {ws : List (List Char)}, ws ≠ [] → (∀ w ∈ ws, Hemmed w) → Hemmed (sep.intercalate ws)
  | [w], _, h => by
    rw [List.intercalate_singleton]
    exact h w (by simp)
  | w :: w' :: ws, _, h => by
    rw [List.intercalate_cons_cons, List.append_assoc]
    exact (h w (by simp)).append (hsep (hemmed_inline hsep (by simp) fun v hv => h v (List.mem_cons_of_mem _ hv)))

omit hunit in
theorem hemmed_inlineBody (depth : Nat) {els : List ElementText} (hels : ∀ el ∈ els, ∀ w, Spells w el → Hemmed w) :
    Hemmed (bodyText false depth unit els).toList := by
  have hopen : Hemmed ['\x7b'] := hemmed_char (by decide)
  have hclose : Hemmed ['\x7d'] := hemmed_char (by decide)
  rw [toList_inlineBody]
  cases els with
  | nil => exact hopen.append hclose
  | cons el els =>
    have hsep {v : List Char} (hv : Hemmed v) : Hemmed ([',', ' '] ++ v) :=
      (hemmed_char (c := ',') (by decide)).append (hv.behind blank_singleton)
    have hwords : ∀ w ∈ (el :: els).map (·.oneLine.toList), Hemmed w := by
      intro w hw
      obtain ⟨el', hel', rfl⟩ := List.mem_map.mp hw
      exact hels el' hel' _ (spells_oneLine el')
    exact hopen.append ((hemmed_inline hsep (by simp) hwords).append hclose)

end

/-- The unit of indentation: one blank or more. -/
structure Blanks (unit : String) : Prop where
  blank : ∀ c ∈ unit.toList, c = ' '
  ne_empty : unit ≠ ""

section
variable {unit : String} {breaks : Token → Token → Bool}

mutual

theorem hemmed_expr (hunit : Blanks unit) : ∀ {ts : List Token} {e : Expr},
    DrawsExpr breaks ts e → Standing ts → AllHemmed ts → ∀ depth, Hemmed (exprText depth unit e).toList
  | _, _, @DrawsExpr.signed _ op _ _ hop he, hstand, h, depth => by
    have hsign : op.kind ≠ .error := by rcases hop with hk | hk <;> simp [hk]
    have := (h op (by simp) hsign).append (hemmed_expr hunit he (hstand.mono (by simp)) (h.mono (by simp)) depth)
    simpa [exprText] using this
  | _, _, @DrawsExpr.literal _ t ht, _, h, _ => h t (by simp) fun hk => by rw [hk] at ht; cases ht
  | _, _, .paren _ he _, hstand, h, depth => by
    have hinner := hemmed_expr hunit he (hstand.mono fun _ ht => by simp [ht]) (h.mono fun _ ht => by simp [ht])
      depth
    have := (hemmed_char (c := '(') (by decide)).append (hinner.append (hemmed_char (c := ')') (by decide)))
    simpa [exprText] using this
  | _, _, .bare ht, hstand, h, depth => by
    rw [exprText_ofType ht hstand]
    exact hemmed_litType ht h
  | _, _, .composite ht hb, hstand, h, depth => by
    have htype := hemmed_litType ht (h.mono (List.subset_append_left ..))
    have hbody := hemmed_body hunit hb (hstand.mono fun _ ht => by simp [ht]) (h.mono fun _ ht => by simp [ht]) depth
    rw [exprText, String.toList_append]
    exact htype.append hbody

theorem hemmed_body (hunit : Blanks unit) : ∀ {ts : List Token} {b : LitBody},
    DrawsBody breaks ts b → Standing ts → AllHemmed ts → ∀ depth, Hemmed (litBodyText depth unit b).toList
  | _, _, @DrawsBody.braces _ l ts es r _ hes _, hstand, h, depth => by
    have helements (depth : Nat) := hemmed_elements hunit hes (hstand.mono fun _ ht => by simp [ht])
      (h.mono fun _ ht => by simp [ht]) depth
    rw [litBodyText, elementTexts_eq]
    cases breaks l r with
    | true => exact hemmed_spreadBody hunit.blank hunit.ne_empty depth (by simpa using helements (depth + 1))
    | false => exact hemmed_inlineBody depth (by simpa using helements depth)

theorem hemmed_elements (hunit : Blanks unit) : ∀ {ts : List Token} {es : List Element},
    DrawsElements breaks ts es → Standing ts → AllHemmed ts → ∀ depth, ∀ e ∈ es, ∀ w,
    Spells w (elementText depth unit e) → Hemmed w
  | _, _, .none, _, _, _ => by simp
  | _, _, .last he, hstand, h, depth => by simpa using hemmed_element hunit he hstand h depth
  | _, _, .comma he _ hes, hstand, h, depth => by
    have hfirst := hemmed_element hunit he (hstand.mono fun _ ht => by simp [ht]) (h.mono fun _ ht => by simp [ht])
      depth
    have hrest := hemmed_elements hunit hes (hstand.mono fun _ ht => by simp [ht]) (h.mono fun _ ht => by simp [ht])
      depth
    exact List.forall_mem_cons.mpr ⟨hfirst, hrest⟩

theorem hemmed_element (hunit : Blanks unit) : ∀ {ts : List Token} {e : Element},
    DrawsElement breaks ts e → Standing ts → AllHemmed ts → ∀ depth w, Spells w (elementText depth unit e) → Hemmed w
  | _, _, .positional hv, hstand, h, depth, _, hw => by
    subst hw
    exact hemmed_value hunit hv hstand h depth
  | _, _, .keyed hk _ hv, hstand, h, depth, _, hw => by
    obtain ⟨pad, hpad, rfl⟩ := hw
    have hkey := hemmed_value hunit hk (hstand.mono fun _ ht => by simp [ht]) (h.mono fun _ ht => by simp [ht]) depth
    have hvalue := hemmed_value hunit hv (hstand.mono fun _ ht => by simp [ht]) (h.mono fun _ ht => by simp [ht])
      depth
    have := hkey.append ((hemmed_char (c := ':') (by decide)).append (hvalue.behind hpad))
    simpa using this

theorem hemmed_value (hunit : Blanks unit) : ∀ {ts : List Token} {v : ElementValue},
    DrawsValue breaks ts v → Standing ts → AllHemmed ts → ∀ depth, Hemmed (valueText depth unit v).toList
  | _, _, .expr he, hstand, h, depth => by
    rw [valueText]
    exact hemmed_expr hunit he hstand h depth
  | _, _, .body hb, hstand, h, depth => by
    rw [valueText]
    exact hemmed_body hunit hb hstand h depth

end

end

end IdlWorkbench.Format
