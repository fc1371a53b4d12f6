import IdlWorkbench.Format.Initialism
import IdlWorkbench.Proofs.Text.Case
import IdlWorkbench.Typing.Surface

/-!
# Initialisms stay fixed

Writing a word in capitals can move the places where words start: `UId` is read as `U` and `Id`, `UID` as one word.
No new place comes up, so the words of a fixed name are groups of the words that were fixed. A group of several has a
capital inside, and an unbroken word with a capital inside that is an initialism up to its case has no lower case
letter at all. So a group is spelled as it should be, whether it is one word or more.
-/

namespace IdlWorkbench.Format

open Text

variable {as bs cs ds w ctx ctx' : List Char} {c d prev : Char}

/-! ## Unbroken words -/

/-- No word starts inside `w`, where `ctx` follows it. -/
def Unbroken : (w ctx : List Char) → Prop
  | prev :: c :: cs, ctx => startsWord prev c (cs ++ ctx).head? = false ∧ Unbroken (c :: cs) ctx
  | _, _ => True

/-- What follows does not start with a lower case letter. -/
def Upright (ctx : List Char) : Prop := ctx.head?.any Text.isLower = false

theorem Unbroken.tail (h : Unbroken (c :: cs) ctx) : Unbroken cs ctx := by
  cases cs with
  | nil => trivial
  | cons d cs => exact h.2

/-- Two unbroken stretches are one where no word starts between them. -/
theorem Unbroken.append : ∀ {v : List Char}, Unbroken (v ++ [prev]) (c :: cs ++ ctx) →
    startsWord prev c (cs ++ ctx).head? = false → Unbroken (c :: cs) ctx → Unbroken (v ++ prev :: c :: cs) ctx
  | [], _, hbetween, h => ⟨hbetween, h⟩
  | [a], h, hbetween, h' => ⟨h.1, hbetween, h'⟩
  | a :: b :: as, h, hbetween, h' => by
    refine ⟨?_, Unbroken.append (v := b :: as) h.2 hbetween h'⟩
    have hstart := h.1
    simpa using hstart

theorem startsWord_of_isLower (hp : Text.isLower prev = true) (next : Option Char) :
    startsWord prev c next = Text.isUpper c := by
  simp [startsWord, hp]

theorem isUpper_of_startsWord {next : Option Char} (h : startsWord prev c next = true) : Text.isUpper c = true :=
  (Bool.and_eq_true_iff.mp h).1

/-- Fewer words start where no lower case letter follows. -/
theorem startsWord_upright {next next' : Option Char} (h : startsWord prev c next = false)
    (hupright : next'.any Text.isLower = true → next.any Text.isLower = true) : startsWord prev c next' = false := by
  cases hnext : next'.any Text.isLower with
  | true =>
    have := hupright hnext
    simpa [startsWord, hnext, this] using h
  | false =>
    simp only [startsWord, hnext, Bool.and_false, Bool.or_false] at h ⊢
    rw [Bool.and_eq_false_iff] at h ⊢
    exact h.imp_right fun h => (Bool.or_eq_false_iff.mp h).1

theorem Unbroken.of_upright (hupright : Upright ctx') : ∀ {w : List Char}, Unbroken w ctx → Unbroken w ctx'
  | [], _ => trivial
  | [_], _ => trivial
  | prev :: c :: cs, h => by
    refine ⟨startsWord_upright h.1 fun hnext => ?_, Unbroken.of_upright hupright h.2⟩
    cases cs with
    | nil =>
      rw [List.nil_append, hupright] at hnext
      cases hnext
    | cons d cs => exact hnext

/-! ## Words of a name -/

/-- Going on through an unbroken stretch. -/
theorem wordsFrom_unbroken : ∀ {cs : List Char} {prev : Char} (word : List Char),
    Unbroken (prev :: cs) ctx → wordsFrom (prev :: word) (cs ++ ctx) = wordsFrom (cs.reverse ++ prev :: word) ctx
  | [], _, _, _ => rfl
  | c :: cs, prev, word, h => by
    rw [List.cons_append, wordsFrom, if_neg (Bool.eq_false_iff.mp h.1), wordsFrom_unbroken (prev :: word) h.2,
      List.reverse_cons,
      List.append_assoc]
    rfl

/-- Words one after the other, each of them unbroken where it stands, all but the first with a capital in front. -/
inductive Worded : List (List Char) → Prop
  | nil : Worded []
  | cons {c : Char} {t : List Char} {ws : List (List Char)} : Unbroken (c :: t) ws.flatten →
      (∀ w ∈ ws.head?, ∃ d ∈ w.head?, Text.isUpper d = true) → Worded ws → Worded ((c :: t) :: ws)

theorem worded_wordsFrom : ∀ {t v : List Char} {p : Char}, Unbroken (v ++ [p]) t →
    ∃ w ws, wordsFrom (p :: v.reverse) t = w :: ws ∧ (w :: ws).flatten = v ++ p :: t ∧
      Worded (w :: ws) ∧ v ++ [p] <+: w
  | [], as, prev, h => by
    refine ⟨as ++ [prev], [], by simp [wordsFrom], by simp, ?_, List.prefix_rfl⟩
    cases as with
    | nil => exact .cons h (by simp) .nil
    | cons a as => exact .cons h (by simp) .nil
  | c :: cs, as, prev, h => by
    rw [wordsFrom]
    by_cases hstart : startsWord prev c cs.head? = true
    · obtain ⟨v, vs, heq, hflat, hvs, tl, rfl⟩ := worded_wordsFrom (t := cs) (v := []) (p := c) trivial
      rw [List.reverse_nil] at heq
      rw [if_pos hstart, heq]
      refine ⟨as ++ [prev], _, by
        rw [List.reverse_cons, List.reverse_reverse], by rw [List.flatten_cons, hflat]; simp, ?_, List.prefix_rfl⟩
      have hcapital : ∀ w ∈ (([] ++ [c] ++ tl) :: vs).head?, ∃ d ∈ w.head?, Text.isUpper d = true := by
        simpa using isUpper_of_startsWord hstart
      rw [← List.nil_append (c :: cs), ← hflat] at h
      cases as with
      | nil => exact .cons h hcapital hvs
      | cons a as => exact .cons h hcapital hvs
    · rw [Bool.not_eq_true] at hstart
      have hnext : Unbroken ((as ++ [prev]) ++ [c]) cs := by
        rw [List.append_assoc]
        exact Unbroken.append h (by simpa using hstart) trivial
      obtain ⟨w, ws, heq, hflat, hws, hpre⟩ := worded_wordsFrom hnext
      rw [List.reverse_append, List.reverse_singleton] at heq
      rw [if_neg (by simp [hstart]), show prev :: as.reverse = [prev] ++ as.reverse from rfl, heq]
      exact ⟨w, ws, rfl, by simpa using hflat, hws, (List.prefix_append _ _).trans hpre⟩

/-- A name that is not empty starts with its first word. -/
theorem worded_words (c : Char) (cs : List Char) : ∃ w ws, wordsFrom [] (c :: cs) = (c :: w) :: ws ∧
    ((c :: w) :: ws).flatten = c :: cs ∧ Worded ((c :: w) :: ws) := by
  obtain ⟨v, ws, heq, hflat, hws, tl, rfl⟩ := worded_wordsFrom (t := cs) (v := []) (p := c) trivial
  exact ⟨tl, ws, heq, hflat, hws⟩

/-! ## Initialisms -/

structure Capitals (cs : List Char) : Prop where
  first : cs.head?.any Char.isUpper = true
  before : ∀ c ∈ cs.dropLast, c.isUpper = true
  all : ∀ c ∈ cs, c.isUpper = true ∨ c.isDigit = true

def folded (cs : List Char) : List Char := cs.map foldAscii

theorem Capitals.not_isLower (h : Capitals cs) : ∀ c ∈ cs, Text.isLower c = false := fun c hc =>
  (h.all c hc).elim (fun hupper => isLower_of_isUpper (isUpper_of_ascii hupper)) isLower_of_isDigit

/-- No word starts inside an initialism. -/
theorem Capitals.unbroken (hupright : Upright ctx) : ∀ {cs : List Char},
    (∀ c ∈ cs.dropLast, c.isUpper = true) → (∀ c ∈ cs, Text.isLower c = false) → Unbroken cs ctx
  | [], _, _ => trivial
  | [_], _, _ => trivial
  | prev :: c :: cs, hbefore, hlower => by
    refine ⟨?_, Capitals.unbroken hupright (fun d hd => hbefore d (List.mem_cons_of_mem _ hd))
      fun d hd => hlower d (List.mem_cons_of_mem _ hd)⟩
    have hnext : (cs ++ ctx).head?.any Text.isLower = false := by
      cases cs with
      | nil => exact hupright
      | cons d cs => exact hlower d (by simp)
    have hprev : prev.isDigit = false := by
      rw [Bool.eq_false_iff]
      intro hdigit
      have := toNat_of_isDigit hdigit
      have := toNat_of_isUpper (hbefore prev (by simp))
      omega
    simp only [startsWord, hnext, hprev, hlower prev List.mem_cons_self, Bool.and_false, Bool.or_false]

/-- The letters of a text that is an initialism up to its case. -/
theorem letters_of_folded : ∀ {u v : List Char}, folded u = folded v → (∀ x ∈ u.dropLast, x.isUpper = true) →
    ∀ c ∈ v.dropLast, c.isUpper = true ∨ c.isLower = true
  | _, [], _, _, c, hc => by simp at hc
  | _, [_], _, _, c, hc => by simp at hc
  | [], _ :: _ :: _, h, _, _, _ => by simp [folded] at h
  | [_], _ :: _ :: _, h, _, _, _ => by simp [folded] at h
  | x :: y :: xs, a :: b :: cs, h, hx, c, hc => by
    obtain ⟨ha, hrest⟩ := List.cons.inj h
    rcases List.mem_cons.mp hc with rfl | hc
    · exact letter_of_fold ha (hx x (by simp))
    · exact letters_of_folded (u := y :: xs) (v := b :: cs) hrest
        (fun z hz => hx z (List.mem_cons_of_mem _ hz)) c hc

theorem eq_of_folded : ∀ {u v : List Char},
    folded u = folded v → (∀ x ∈ u, x.isUpper = true ∨ x.isDigit = true) → (∀ c ∈ v, c.isLower = false) → u = v
  | [], [], _, _, _ => rfl
  | [], _ :: _, h, _, _ => by simp [folded] at h
  | _ :: _, [], h, _, _ => by simp [folded] at h
  | x :: xs, c :: cs, h, hx, hc => by
    obtain ⟨hxc, hrest⟩ := List.cons.inj h
    rw [eq_of_fold hxc (hx x (by simp)) (hc c (by simp)), eq_of_folded (u := xs) (v := cs) hrest
      (fun z hz => hx z (List.mem_cons_of_mem _ hz)) fun z hz => hc z (List.mem_cons_of_mem _ hz)]

/-- A text without capitals is its own lower case. -/
theorem folded_eq_self (h : ∀ c ∈ cs, c.isUpper = false) : folded cs = cs :=
  (List.map_congr_left fun c hc => foldAscii_of_not_isUpper (h c hc)).trans (List.map_id cs)

/-! ## Words with and without capitals inside -/

/-- Letters before a capital are capitals. -/
theorem isUpper_before : ∀ {v : List Char}, Unbroken (v ++ c :: cs) ctx → Text.isUpper c = true →
    (∀ a ∈ v, a.isUpper = true ∨ a.isLower = true) → ∀ a ∈ v, a.isUpper = true
  | [], _, _, _, a, ha => by simp at ha
  | b :: as, h, hc, hletter, a, ha => by
    have hrest := isUpper_before (v := as) h.tail hc fun a ha => hletter a (List.mem_cons_of_mem _ ha)
    rcases List.mem_cons.mp ha with rfl | ha
    · refine (hletter a (by simp)).resolve_right fun hlower => ?_
      -- what stands behind a lower case letter would start a word
      have hstart (d : Char) (next : Option Char) (hd : Text.isUpper d = true) : startsWord a d next = true :=
        (startsWord_of_isLower (isLower_of_ascii hlower) next).trans hd
      cases as with
      | nil =>
        have hfalse := h.1
        rw [hstart c _ hc] at hfalse
        cases hfalse
      | cons d as =>
        have hfalse := h.1
        rw [hstart d _ (isUpper_of_ascii (hrest d (by simp)))] at hfalse
        cases hfalse
    · exact hrest a ha

/-- No lower case letters stand behind two capitals. -/
theorem not_isLower_behind : ∀ {cs : List Char} {p c : Char}, Unbroken (p :: c :: cs) ctx → Text.isUpper p = true →
    Text.isUpper c = true → (∀ d ∈ cs.dropLast, d.isUpper = true ∨ d.isLower = true) → ∀ d ∈ cs,
    Text.isLower d = false
  | [], _, _, _, _, _, _, d, hd => by simp at hd
  | e :: cs, p, c, h, hp, hc, hletter, d, hd => by
    have he : Text.isLower e = false := by
      have hfalse := h.1
      simp only [startsWord, hc, hp, Bool.true_and, List.cons_append, List.head?_cons, Option.any_some,
        Bool.or_eq_false_iff] at hfalse
      exact hfalse.2
    rcases List.mem_cons.mp hd with rfl | hd
    · exact he
    · obtain ⟨f, cs, rfl⟩ := List.exists_cons_of_ne_nil (List.ne_nil_of_mem hd)
      have hupper : e.isUpper = true := (hletter e (by simp)).resolve_right fun hlower => by
        rw [isLower_of_ascii hlower] at he
        cases he
      exact not_isLower_behind h.2 hc (isUpper_of_ascii hupper)
        (fun z hz => hletter z (List.mem_cons_of_mem _ hz)) d hd

/-- An unbroken word with a capital inside that is an initialism up to its case is that initialism. -/
theorem eq_of_capital_inside {xs : List Char} (hx : Capitals xs) (h : Unbroken (as ++ prev :: c :: cs) ctx)
    (hc : Text.isUpper c = true) (hsame : folded xs = folded (as ++ prev :: c :: cs)) :
    xs = as ++ prev :: c :: cs := by
  have hletters := letters_of_folded hsame hx.before
  have hsplit : as ++ prev :: c :: cs = (as ++ [prev]) ++ c :: cs := by simp
  have hbefore : ∀ a ∈ as ++ [prev], a.isUpper = true := by
    rw [hsplit] at h hletters
    refine isUpper_before h hc fun a ha => hletters a ?_
    rw [List.dropLast_append_of_ne_nil (by simp)]
    exact List.mem_append_left _ ha
  have hprev : Text.isUpper prev = true := isUpper_of_ascii (hbefore prev (by simp))
  have hbehind : ∀ d ∈ cs, Text.isLower d = false := by
    have hsuffix : Unbroken (prev :: c :: cs) ctx := by
      clear hsame hletters hsplit hbefore
      induction as with
      | nil => exact h
      | cons a as ih => exact ih h.tail
    refine not_isLower_behind hsuffix hprev hc fun d hd => hletters d ?_
    obtain ⟨e, cs, rfl⟩ := List.exists_cons_of_ne_nil (show cs ≠ [] by rintro rfl; simp at hd)
    rw [List.dropLast_append_of_ne_nil (by simp)]
    exact List.mem_append_right _ (List.mem_cons_of_mem _ (List.mem_cons_of_mem _ hd))
  refine eq_of_folded hsame hx.all fun d hd => ?_
  have hlower : Text.isLower d = false := by
    rw [hsplit] at hd
    rcases List.mem_append.mp hd with hd | hd
    · exact isLower_of_isUpper (isUpper_of_ascii (hbefore d hd))
    · rcases List.mem_cons.mp hd with rfl | hd
      · exact isLower_of_isUpper hc
      · exact hbehind d hd
  rw [Bool.eq_false_iff]
  intro hd
  rw [isLower_of_ascii hd] at hlower
  cases hlower

/-- A word that starts in lower case and is an initialism up to its case has no capital. -/
theorem not_isUpper_of_isLower : ∀ {cs : List Char} {c : Char}, Unbroken (c :: cs) ctx → Text.isLower c = true →
    (∀ d ∈ (c :: cs).dropLast, d.isUpper = true ∨ d.isLower = true) → ∀ d ∈ c :: cs, d.isUpper = false
  | cs, c, h, hc, hletter, d, hd => by
    have hnot {e : Char} (he : Text.isUpper e = false) : e.isUpper = false :=
      Bool.eq_false_iff.mpr fun hupper => by
        rw [isUpper_of_ascii hupper] at he
        cases he
    rcases List.mem_cons.mp hd with rfl | hd
    · refine hnot (Bool.eq_false_iff.mpr fun hupper => ?_)
      rw [isLower_of_isUpper hupper] at hc
      cases hc
    · cases cs with
      | nil => simp at hd
      | cons e cs =>
        have he : Text.isUpper e = false := (startsWord_of_isLower hc _).symm.trans h.1
        cases cs with
        | nil =>
          obtain rfl := List.mem_singleton.mp hd
          exact hnot he
        | cons f cs =>
          have hlower : e.isLower = true := (hletter e (by simp)).resolve_left fun hupper => by
            rw [isUpper_of_ascii hupper] at he
            cases he
          exact not_isUpper_of_isLower h.2 (isLower_of_ascii hlower)
            (fun z hz => hletter z (List.mem_cons_of_mem _ hz)) d hd

/-! ## Fixed names -/

theorem sameIgnoringAsciiCase_iff {s t : String} : sameIgnoringAsciiCase s t = true ↔
    folded s.toList = folded t.toList :=
  beq_iff_eq

/-- Whatever initialism the text is up to its case, it is spelled as that. -/
def Spelled (initialisms : List String) (cs : List Char) : Prop :=
  ∀ x ∈ initialisms, folded x.toList = folded cs → x.toList = cs

/-- Initialisms in capitals, whose lower case is that of ASCII. -/
structure Regular (initialisms : List String) : Prop where
  capitals : ∀ x ∈ initialisms, Capitals x.toList
  lower : ∀ x ∈ initialisms, (toLower x).toList = folded x.toList

section
variable {initialisms : List String}

def respell (initialisms : List String) (w : List Char) : List Char :=
  (fixWord initialisms false (String.ofList w)).toList

theorem fixWord_cases (initialisms : List String) (lower : Bool) (w : List Char) :
    (∃ x ∈ initialisms, folded x.toList = folded w ∧
        fixWord initialisms lower (String.ofList w) = if lower then toLower x else x) ∨
      (∀ x ∈ initialisms, folded x.toList ≠ folded w) ∧
      fixWord initialisms lower (String.ofList w) = String.ofList w := by
  rw [fixWord]
  split
  · rename_i x hx
    have hsame :=
      sameIgnoringAsciiCase_iff.mp (List.find?_some (p := fun x => sameIgnoringAsciiCase x (String.ofList w)) hx)
    rw [String.toList_ofList] at hsame
    exact Or.inl ⟨x, List.mem_of_find?_eq_some hx, hsame, rfl⟩
  · rename_i hnone
    refine Or.inr ⟨fun x hx hsame => ?_, rfl⟩
    refine List.find?_eq_none.mp hnone x hx (sameIgnoringAsciiCase_iff.mpr ?_)
    rwa [String.toList_ofList]

theorem fixWord_eq_self (h : Spelled initialisms w) :
    fixWord initialisms false (String.ofList w) = String.ofList w := by
  rcases fixWord_cases initialisms false w with ⟨x, hx, hsame, heq⟩ | ⟨-, heq⟩
  · rw [heq, ← h x hx hsame]
    exact (String.ofList_toList).symm
  · exact heq

variable (hreg : Regular initialisms)
include hreg

/-- A first word in lower case stays as it is. -/
theorem fixWord_lower_eq_self (h : Unbroken (c :: cs) ctx) (hc : Text.isLower c = true) :
    fixWord initialisms true (String.ofList (c :: cs)) = String.ofList (c :: cs) := by
  rcases fixWord_cases initialisms true (c :: cs) with ⟨x, hx, hsame, heq⟩ | ⟨-, heq⟩
  · have hletters := letters_of_folded hsame (hreg.capitals x hx).before
    have hself := folded_eq_self (not_isUpper_of_isLower h hc hletters)
    rw [heq, if_pos rfl, ← hself, ← hsame, ← hreg.lower x hx]
    exact (String.ofList_toList).symm
  · exact heq

/-- Fixing changes nothing but the case of ASCII letters. -/
theorem folded_fixWord (lower : Bool) (w : List Char) :
    folded (fixWord initialisms lower (String.ofList w)).toList = folded w := by
  have hidem (cs : List Char) : folded (folded cs) = folded cs := by
    rw [folded, folded, List.map_map]
    exact List.map_congr_left fun c _ => foldAscii_foldAscii c
  rcases fixWord_cases initialisms lower w with ⟨x, hx, hsame, heq⟩ | ⟨-, heq⟩
  · rw [heq, ← hsame]
    cases lower with
    | true =>
      change folded (toLower x).toList = _
      rw [hreg.lower x hx, hidem]
    | false => rfl
  · rw [heq, String.toList_ofList]

theorem spelled_respell (w : List Char) : Spelled initialisms (respell initialisms w) := by
  intro x hx hsame
  rcases fixWord_cases initialisms false w with ⟨y, hy, -, heq⟩ | ⟨hnone, heq⟩
  · have heq : respell initialisms w = y.toList := congrArg String.toList heq
    rw [heq] at hsame ⊢
    refine eq_of_folded hsame (hreg.capitals x hx).all fun c hc => Bool.eq_false_iff.mpr fun hlower => ?_
    have hnot := (hreg.capitals y hy).not_isLower c hc
    rw [isLower_of_ascii hlower] at hnot
    cases hnot
  · have heq : respell initialisms w = w := (congrArg String.toList heq).trans String.toList_ofList
    rw [heq] at hsame
    exact absurd hsame (hnone x hx)

/-- A word is unbroken when it is fixed, and starts with a capital if it did. -/
theorem respell_cons (h : Unbroken (c :: cs) ctx) (hupright : Upright ctx') :
    ∃ d ds, respell initialisms (c :: cs) = d :: ds ∧
    Unbroken (d :: ds) ctx' ∧ (Text.isUpper c = true → Text.isUpper d = true) := by
  rcases fixWord_cases initialisms false (c :: cs) with ⟨x, hx, -, heq⟩ | ⟨-, heq⟩
  · have heq : respell initialisms (c :: cs) = x.toList := congrArg String.toList heq
    have hcap := hreg.capitals x hx
    obtain ⟨d, hd, hupper⟩ := (Option.any_eq_true ..).mp hcap.first
    obtain ⟨ds, hds⟩ := List.head?_eq_some_iff.mp hd
    have hunbroken := Capitals.unbroken hupright hcap.before hcap.not_isLower
    rw [hds] at heq hunbroken
    exact ⟨d, ds, heq, hunbroken, fun _ => isUpper_of_ascii hupper⟩
  · have heq : respell initialisms (c :: cs) = c :: cs := (congrArg String.toList heq).trans String.toList_ofList
    exact ⟨c, cs, heq, h.of_upright hupright, id⟩

/-- Words with a capital in front, one after the other. -/
theorem upright_respelled {ws : List (List Char)} (h : Worded ws)
    (hcap : ∀ w ∈ ws.head?, ∃ d ∈ w.head?, Text.isUpper d = true) :
    Upright (ws.map (respell initialisms)).flatten := by
  cases h with
  | nil => rfl
  | @cons c cs ws hw _ _ =>
    have hc : Text.isUpper c = true := by simpa using hcap
    obtain ⟨d, ds, heq, -, hd⟩ := respell_cons hreg hw (show Upright [] from rfl)
    rw [List.map_cons, List.flatten_cons, heq]
    exact isLower_of_isUpper (hd hc)

/-- The words of a fixed name are groups of the words that were fixed, and each one is spelled as it should be. The
first of them starts with what is given of it. -/
theorem wordsFrom_respelled : ∀ {ws : List (List Char)} {v : List Char}, v ≠ [] → Worded ws →
    (∀ w ∈ ws.head?, ∃ d ∈ w.head?, Text.isUpper d = true) → Unbroken v (ws.map (respell initialisms)).flatten →
    ∃ g gs, wordsFrom v.reverse (ws.map (respell initialisms)).flatten = g :: gs ∧
      (∀ w ∈ gs, Spelled initialisms w) ∧ (Spelled initialisms v → Spelled initialisms g)
  | [], acc, hne, _, _, _ => by
    obtain ⟨as, p, rfl⟩ : ∃ as p, acc = as ++ [p] := ⟨_, _, (List.dropLast_concat_getLast hne).symm⟩
    refine ⟨as ++ [p], [], ?_, nofun, id⟩
    simp [wordsFrom]
  | _ :: ws, acc, hne, .cons (c := c) (t := cs) hw hnext hws, hcap, hacc => by
    obtain ⟨as, p, rfl⟩ : ∃ as p, acc = as ++ [p] := ⟨_, _, (List.dropLast_concat_getLast hne).symm⟩
    have hupright := upright_respelled hreg hws hnext
    obtain ⟨d, ds, heq, hd, hupper⟩ := respell_cons hreg hw hupright
    have hd' : Text.isUpper d = true := hupper (by simpa using hcap)
    rw [List.map_cons, List.flatten_cons, heq] at hacc ⊢
    rw [List.reverse_append, List.reverse_singleton, List.singleton_append, List.cons_append, wordsFrom]
    by_cases hstart : startsWord p d (ds ++ (ws.map (respell initialisms)).flatten).head? = true
    · -- the word stays a word of its own, or starts a group
      obtain ⟨g, gs, hwords, hgs, hg⟩ := wordsFrom_respelled (v := d :: ds) (by simp) hws hnext hd
      have hthrough := wordsFrom_unbroken [] hd
      rw [List.reverse_cons] at hwords
      rw [if_pos hstart, hthrough, hwords]
      refine ⟨_, _, rfl, List.forall_mem_cons.mpr ⟨hg ?_, hgs⟩, fun h => ?_⟩
      · rw [← heq]
        exact spelled_respell hreg _
      · rwa [List.reverse_cons, List.reverse_reverse]
    · -- the word goes into the group before it, with its capital inside
      rw [Bool.not_eq_true] at hstart
      have hgroup : Unbroken (as ++ p :: d :: ds) (ws.map (respell initialisms)).flatten := hacc.append hstart hd
      obtain ⟨g, gs, hwords, hgs, hg⟩ := wordsFrom_respelled (v := as ++ p :: d :: ds) (by simp) hws hnext hgroup
      have hthrough := wordsFrom_unbroken (p :: as.reverse) hd
      have hacc : (as ++ p :: d :: ds).reverse = ds.reverse ++ d :: p :: as.reverse := by simp
      rw [hacc] at hwords
      rw [if_neg (Bool.eq_false_iff.mp hstart), hthrough, hwords]
      refine ⟨g, gs, rfl, hgs, fun _ => hg fun x hx hsame => ?_⟩
      exact eq_of_capital_inside (hreg.capitals x hx) hgroup hd' hsame

end

section
variable {settings : FormatSettings} (hfix : settings.fixInitialisms = true) (hreg : Regular settings.initialisms)
include hfix

/-- A name is fixed word by word. -/
theorem toList_fixName {name : String} {first : List Char} {rest : List (List Char)}
    (h : wordsFrom [] name.toList = first :: rest) : (fixName settings name).toList =
      (fixWord settings.initialisms (name.toList.head?.any Text.isLower) (String.ofList first)).toList ++
        (rest.map (respell settings.initialisms)).flatten := by
  rw [fixName, if_pos hfix, words, h, List.map_cons]
  simp only [String.toList_append, String.toList_join, List.map_map, List.flatMap_def]
  rfl

theorem fixName_empty {name : String} (h : name.toList = []) : fixName settings name = name := by
  rw [fixName, if_pos hfix, words, h]
  exact String.toList_injective h.symm

include hreg

theorem folded_fixName (name : String) : folded (fixName settings name).toList = folded name.toList := by
  cases hname : name.toList with
  | nil => rw [fixName_empty hfix hname, hname]
  | cons c cs =>
    obtain ⟨w, ws, heq, hflat, -⟩ := worded_words c cs
    rw [toList_fixName hfix (hname ▸ heq), ← hflat, List.flatten_cons, folded, folded, List.map_append,
      List.map_append]
    refine congr (congrArg _ (folded_fixWord hreg _ _)) ?_
    rw [List.map_flatten, List.map_flatten, List.map_map]
    exact congrArg List.flatten (List.map_congr_left fun w _ => folded_fixWord hreg false w)

/-- How a fixed name starts. -/
theorem head_fixName {name : String} {c : Char} {cs : List Char} (h : name.toList = c :: cs) :
    ∃ d ds, (fixName settings name).toList = d :: ds ∧ (Text.isLower c = true → d = c) ∧
      (Text.isLower c = false → Text.isUpper d = Text.isUpper c ∧ Text.isLower d = false) := by
  obtain ⟨w, ws, heq, -, hws⟩ := worded_words c cs
  have hlist := toList_fixName hfix (h ▸ heq)
  rw [h, List.head?_cons, Option.any_some] at hlist
  cases hws with
  | cons hw _ _ =>
    cases hc : Text.isLower c with
    | true =>
      rw [hc, fixWord_lower_eq_self hreg hw hc, String.toList_ofList] at hlist
      exact ⟨c, _, hlist, fun _ => rfl, nofun⟩
    | false =>
      rw [hc] at hlist
      rcases fixWord_cases settings.initialisms false (c :: w) with ⟨x, hx, hsame, hfixed⟩ | ⟨-, hfixed⟩
      · obtain ⟨d, hd, hupper⟩ := (Option.any_eq_true ..).mp (hreg.capitals x hx).first
        obtain ⟨ds, hds⟩ := List.head?_eq_some_iff.mp hd
        rw [hfixed, if_neg (by decide), hds] at hlist
        rw [hds] at hsame
        have hcu : c.isUpper = true := (letter_of_fold (List.cons.inj hsame).1 hupper).resolve_right fun hlower => by
          rw [isLower_of_ascii hlower] at hc
          cases hc
        refine ⟨d, _, hlist, nofun, fun _ => ⟨?_, isLower_of_isUpper (isUpper_of_ascii hupper)⟩⟩
        rw [isUpper_of_ascii hupper, isUpper_of_ascii hcu]
      · rw [hfixed, String.toList_ofList] at hlist
        exact ⟨c, _, hlist, nofun, fun _ => ⟨rfl, hc⟩⟩

theorem isExported_fixName (name : String) : isExported (fixName settings name) = isExported name := by
  cases hname : name.toList with
  | nil => rw [fixName_empty hfix hname]
  | cons c cs =>
    obtain ⟨d, ds, hd, hlower, hother⟩ := head_fixName hfix hreg hname
    rw [isExported, isExported, hd, hname, List.head?_cons, List.head?_cons, Option.any_some, Option.any_some]
    cases hc : Text.isLower c with
    | true => rw [hlower hc]
    | false => exact (hother hc).1

/-- The words of a fixed name: all but the first are spelled as they should be, and so is the first if the name does
not start in lower case. -/
theorem words_fixName {name : String} {c : Char} {cs : List Char} (h : name.toList = c :: cs) :
    ∃ g gs, wordsFrom [] (fixName settings name).toList = g :: gs ∧ (∀ w ∈ gs, Spelled settings.initialisms w) ∧
      (Text.isLower c = false → Spelled settings.initialisms g) := by
  obtain ⟨w, ws, heq, -, hws⟩ := worded_words c cs
  have hlist := toList_fixName hfix (h ▸ heq)
  rw [h, List.head?_cons, Option.any_some] at hlist
  cases hws with
  | cons hw hnext hrest =>
    have hupright := upright_respelled hreg hrest hnext
    obtain ⟨d, ds, hfirst, hunbroken, hspelled⟩ : ∃ d ds,
        (fixWord settings.initialisms (Text.isLower c) (String.ofList (c :: w))).toList = d :: ds ∧
          Unbroken (d :: ds) (ws.map (respell settings.initialisms)).flatten ∧
          (Text.isLower c = false → Spelled settings.initialisms (d :: ds)) := by
      cases hc : Text.isLower c with
      | true =>
        rw [fixWord_lower_eq_self hreg hw hc, String.toList_ofList]
        exact ⟨c, w, rfl, hw.of_upright hupright, nofun⟩
      | false =>
        obtain ⟨d, ds, hrespell, hunbroken, -⟩ := respell_cons hreg hw hupright
        exact ⟨d, ds, hrespell, hunbroken, fun _ => hrespell ▸ spelled_respell hreg (c :: w)⟩
    obtain ⟨g, gs, hwords, hgs, hg⟩ := wordsFrom_respelled hreg (List.cons_ne_nil d ds) hrest hnext hunbroken
    have hthrough := wordsFrom_unbroken [] hunbroken
    rw [← List.reverse_cons, hwords] at hthrough
    refine ⟨g, gs, ?_, hgs, fun hc => hg (hspelled hc)⟩
    rw [hlist, hfirst, List.cons_append, wordsFrom]
    exact hthrough

theorem fixName_fixName (name : String) : fixName settings (fixName settings name) = fixName settings name := by
  cases hname : name.toList with
  | nil =>
    have hself := fixName_empty hfix hname
    rw [hself, hself]
  | cons c cs =>
    obtain ⟨d, ds, hd, hlower, hother⟩ := head_fixName hfix hreg hname
    obtain ⟨g, gs, hwords, hgs, hg⟩ := words_fixName hfix hreg hname
    obtain ⟨v, vs, heq, hflat, hvs⟩ := worded_words d ds
    obtain ⟨rfl, rfl⟩ := List.cons.inj ((hd ▸ hwords).symm.trans heq)
    have hrest : gs.map (respell settings.initialisms) = gs :=
      (List.map_congr_left fun w hw => (congrArg String.toList (fixWord_eq_self (hgs w hw))).trans
        String.toList_ofList).trans
        (List.map_id gs)
    have hfirst : fixWord settings.initialisms (Text.isLower d) (String.ofList (d :: v)) =
      String.ofList (d :: v) := by
      cases hc : Text.isLower c with
      | true =>
        obtain rfl := hlower hc
        cases hvs with
        | cons hv _ _ =>
          rw [hc]
          exact fixWord_lower_eq_self hreg hv hc
      | false =>
        rw [(hother hc).2]
        exact fixWord_eq_self (hg hc)
    refine String.toList_injective ?_
    rw [toList_fixName hfix hwords, hd, List.head?_cons, Option.any_some, hfirst, String.toList_ofList, hrest]
    exact hflat

end

theorem regular_default : Regular defaultInitialisms where
  capitals x hx := by
    have hall : (defaultInitialisms.all fun x => x.toList.head?.any Char.isUpper && x.toList.dropLast.all
      Char.isUpper &&
        x.toList.all fun c => c.isUpper || c.isDigit) = true := by decide +kernel
    simp only [List.all_eq_true, Bool.and_eq_true, Bool.or_eq_true] at hall
    exact ⟨(hall x hx).1.1, (hall x hx).1.2, (hall x hx).2⟩
  lower := by
    have hall : ∀ x ∈ defaultInitialisms, (toLower x).toList = folded x.toList := by decide +kernel
    exact hall

/-- Fixing the default initialisms of a name changes the case of ASCII letters alone, keeps the name exported or not,
and leaves nothing to fix. -/
theorem initialisms_stay_fixed (name : String) :
    let settings : FormatSettings := { fixInitialisms := true }
    sameIgnoringAsciiCase (fixName settings name) name = true ∧
      isExported (fixName settings name) = isExported name ∧
      fixName settings (fixName settings name) = fixName settings name := by
  intro settings
  have hreg : Regular settings.initialisms := regular_default
  exact ⟨sameIgnoringAsciiCase_iff.mpr (folded_fixName rfl hreg name), isExported_fixName rfl hreg name,
    fixName_fixName rfl hreg name⟩

example : fixName { fixInitialisms := true } "UIdHttpSqlX" = "UIDHTTPSQLX" := by decide +kernel

end IdlWorkbench.Format
