import IdlWorkbench.Proofs.Text.Bytes
import IdlWorkbench.Proofs.Token.Cover
import Mathlib.Data.List.TakeWhile

/-!
# Comments among the tokens

A line comment is `//` and what stands behind it on its line. A block comment stands between `/*` and `*/`.
-/

namespace IdlWorkbench.Token

theorem not_mem_run (c : Char) (cs : List Char) : c ∉ cs.take (run (· ≠ c) cs) := by
  rw [run, ← List.prefix_iff_eq_take.mp (List.takeWhile_prefix _)]
  intro h
  simpa using List.mem_takeWhile_imp h

theorem keyword?_not_comment (cs : List Char) : ∀ k ∈ keyword? cs, k.isComment = false := by
  fun_cases keyword? cs <;> simp [TokenKind.isComment]

theorem punctuation?_not_comment (c : Char) : ∀ k ∈ punctuation? c, k.isComment = false := by
  fun_cases punctuation? c <;> simp [TokenKind.isComment]

theorem number_not_comment (d : Char) (cs : List Char) : (number d cs).1.isComment = false := by
  simp only [number, apply_ite Prod.fst, apply_ite TokenKind.isComment]
  simp [TokenKind.isComment]

theorem quoted_not_comment (cs : List Char) : (quoted cs).1.isComment = false := by
  fun_induction quoted cs <;> first
    | rfl
    | assumption
    | simp_all

theorem take_commentClose : ∀ {cs : List Char} {n : Nat}, commentClose? cs = some n →
    ∃ inner, cs.take n = inner ++ ['*', '/'] := by
  intro cs
  fun_induction commentClose? cs with
  | case1 rest =>
    intro n h
    cases h
    exact ⟨[], rfl⟩
  | case2 c cs _ ih =>
    intro n h
    obtain ⟨m, hm, rfl⟩ := Option.map_eq_some_iff.mp h
    obtain ⟨inner, hinner⟩ := ih hm
    exact ⟨c :: inner, by rw [List.take_succ_cons, hinner]; rfl⟩
  | case3 => exact fun h => nomatch h

inductive IsComment : TokenKind → List Char → Prop
  | line {body} : '\n' ∉ body → IsComment .lineComment ('/' :: '/' :: body)
  | block (inner) : IsComment .blockComment ('/' :: '*' :: (inner ++ ['*', '/']))

theorem munch_isComment {c : Char} {cs : List Char} {k : TokenKind} {n : Nat} (hm : munch c cs = (k, n))
    (hk : k.isComment = true) : IsComment k (c :: cs.take n) := by
  have hne {a : TokenKind × Nat} (ha : a.1.isComment = false) (h : a = (k, n)) : False := by
    rw [h, hk] at ha
    cases ha
  unfold munch at hm
  by_cases hblank : isBlank c = true
  · rw [if_pos hblank] at hm
    exact (hne rfl hm).elim
  rw [if_neg hblank] at hm
  by_cases hident : isIdentStart c = true
  · rw [if_pos hident] at hm
    refine (hne ?_ hm).elim
    show ((keyword? (c :: cs.take (run isIdentRest cs))).getD .ident).isComment = false
    cases hkw : keyword? (c :: cs.take (run isIdentRest cs)) with
    | none => rfl
    | some kind => exact keyword?_not_comment _ kind hkw
  rw [if_neg hident] at hm
  by_cases hdigit : c.isDigit = true
  · rw [if_pos hdigit] at hm
    exact (hne (number_not_comment c cs) hm).elim
  rw [if_neg hdigit] at hm
  by_cases hquote : c = '"'
  · rw [if_pos hquote] at hm
    exact (hne (quoted_not_comment cs) hm).elim
  rw [if_neg hquote] at hm
  by_cases hraw : c = '`'
  · rw [if_pos hraw] at hm
    refine (hne ?_ hm).elim
    dsimp only
    split <;> rfl
  rw [if_neg hraw] at hm
  by_cases hslash : c = '/'
  · rw [if_pos hslash] at hm
    subst hslash
    split at hm
    · rename_i rest
      cases hm
      rw [Nat.add_comm, List.take_succ_cons]
      exact .line (not_mem_run '\n' rest)
    · rename_i rest
      split at hm
      · rename_i n hn
        cases hm
        obtain ⟨inner, hinner⟩ := take_commentClose hn
        rw [Nat.add_comm, List.take_succ_cons, hinner]
        exact .block inner
      · exact (hne rfl hm).elim
    · exact (hne rfl hm).elim
  · rw [if_neg hslash] at hm
    refine (hne ?_ hm).elim
    split
    · exact punctuation?_not_comment _ _ ‹_›
    · rfl

theorem scan_isComment : ∀ (cs : List Char) (offset skip : Nat), ∀ t ∈ scan offset skip cs,
    t.isComment = true → IsComment t.kind t.text.toList
  | [], _, _, t, ht, _ => by simp [scan] at ht
  | _ :: cs, offset, skip + 1, t, ht, hc => by
    rw [scan] at ht
    exact scan_isComment cs offset skip t ht hc
  | c :: cs, offset, 0, t, ht, hc => by
    rcases hm : munch c cs with ⟨kind, n⟩
    simp only [scan, hm] at ht
    rcases List.mem_cons.mp ht with rfl | ht
    · rw [String.toList_ofList]
      exact munch_isComment hm hc
    · exact scan_isComment cs _ _ t ht hc

theorem isComment_of_mem {text : String} {t : Token} (ht : t ∈ tokenize text) (hc : t.isComment = true) :
    IsComment t.kind t.text.toList :=
  scan_isComment _ _ _ t ht hc

/-- A token stands in its text where its offset says. -/
theorem lies_of_mem {text : String} {t : Token} (ht : t ∈ tokenize text) :
    ∃ before after, text.toList = before ++ t.text.toList ++ after ∧ Text.bytes before = t.offset := by
  obtain ⟨ts, us, h⟩ := List.append_of_mem ht
  refine ⟨ts.flatMap (·.text.toList), us.flatMap (·.text.toList), ?_, ?_⟩
  · have hchars : (tokenize text).flatMap (·.text.toList) = text.toList := scan_chars text.toList 0 0
    rw [← hchars, h]
    simp
  · rw [tokenize_offset h, ← Text.bytes_toList, String.toList_join, List.flatMap_map]

end IdlWorkbench.Token
