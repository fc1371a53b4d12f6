import IdlWorkbench.Proofs.Token.Cover
import IdlWorkbench.Text.Blank

/-!
# Characters and byte offsets

An offset that cuts no character splits a text in two. `charAt?` looks a character up by the offset at
which it starts.
-/

namespace IdlWorkbench.Text

theorem bytes_append (cs ds : List Char) : bytes (cs ++ ds) = bytes cs + bytes ds := by
  induction cs with
  | nil => simp [bytes]
  | cons c cs ih => rw [List.cons_append, bytes, bytes, ih, Nat.add_assoc]

theorem bytes_toList (s : String) : bytes s.toList = s.utf8ByteSize := by rw [bytes_eq, String.ofList_toList]

/-- The character that starts at a byte offset. -/
def charAt? : Nat → List Char → Option Char
  | _, [] => none
  | n, c :: cs => if n = 0 then some c else if c.utf8Size ≤ n then charAt? (n - c.utf8Size) cs else none

/-- Whether no character is cut by a byte offset that lies in a text or at its end. -/
def IsBoundary (n : Nat) (cs : List Char) : Prop := bytes (takeBytes n cs) = n

instance (n : Nat) (cs : List Char) : Decidable (IsBoundary n cs) := inferInstanceAs (Decidable (_ = _))

theorem charAt?_bytes (c : Char) (after : List Char) : ∀ before,
    charAt? (bytes before) (before ++ c :: after) = some c
  | [] => by simp [bytes, charAt?]
  | d :: before => by
    have hpos := d.utf8Size_pos
    have hle : d.utf8Size ≤ d.utf8Size + bytes before := Nat.le_add_right _ _
    rw [bytes, List.cons_append, charAt?, if_neg (by omega), if_pos hle, Nat.add_sub_cancel_left]
    exact charAt?_bytes c after before

theorem exists_of_charAt? {c : Char} : ∀ {cs : List Char} {n : Nat},
    charAt? n cs = some c → ∃ before after, cs = before ++ c :: after ∧ bytes before = n
  | [], _, h => by simp [charAt?] at h
  | d :: cs, n, h => by
    rw [charAt?] at h
    by_cases h0 : n = 0
    · rw [if_pos h0, Option.some.injEq] at h
      exact ⟨[], cs, by rw [h]; rfl, by simp [bytes, h0]⟩
    · rw [if_neg h0] at h
      by_cases hle : d.utf8Size ≤ n
      · rw [if_pos hle] at h
        obtain ⟨before, after, rfl, hb⟩ := exists_of_charAt? h
        exact ⟨d :: before, after, rfl, by rw [bytes, hb]; omega⟩
      · rw [if_neg hle] at h
        cases h

theorem prefix_takeBytes : ∀ (n : Nat) (cs : List Char), takeBytes n cs <+: cs
  | _, [] => by simp [takeBytes]
  | n, c :: cs => by
    rw [takeBytes]
    split
    · exact List.prefix_cons_inj c |>.mpr (prefix_takeBytes _ cs)
    · exact List.nil_prefix

theorem takeBytes_bytes (after : List Char) : ∀ before, takeBytes (bytes before) (before ++ after) = before
  | [] => by
    cases after with
    | nil => rfl
    | cons c after =>
      have := c.utf8Size_pos
      rw [List.nil_append, bytes, takeBytes, if_neg (by omega)]
  | c :: before => by
    rw [bytes, List.cons_append, takeBytes, if_pos (Nat.le_add_right _ _), Nat.add_sub_cancel_left,
      takeBytes_bytes after before]

theorem bytes_takeBytes_mono : ∀ {m n : Nat} (cs : List Char), m ≤ n → bytes (takeBytes m cs) ≤
      bytes (takeBytes n cs)
  | _, _, [], _ => by simp [takeBytes]
  | m, n, c :: cs, h => by
    by_cases hm : c.utf8Size ≤ m
    · have := bytes_takeBytes_mono cs (Nat.sub_le_sub_right h c.utf8Size)
      rw [takeBytes, takeBytes, if_pos hm, if_pos (Nat.le_trans hm h), bytes, bytes]
      omega
    · rw [takeBytes, if_neg hm, bytes]
      exact Nat.zero_le _

theorem bytes_le_of_prefix {cs ds : List Char} (h : cs <+: ds) : bytes cs ≤ bytes ds := by
  obtain ⟨es, rfl⟩ := h
  rw [bytes_append]
  exact Nat.le_add_right _ _

/-- Of two starts of one text, the one with fewer bytes is a start of the other. -/
theorem prefix_of_bytes_le {cs ds es : List Char} (hc : cs <+: es) (hd : ds <+: es)
    (h : bytes cs ≤ bytes ds) : cs <+: ds := by
  rcases List.prefix_or_prefix_of_prefix hc hd with h' | ⟨u, rfl⟩
  · exact h'
  · rw [bytes_append] at h
    cases u with
    | nil => simp
    | cons c u =>
      have := c.utf8Size_pos
      rw [bytes] at h
      omega

theorem bytes_reverse (cs : List Char) : bytes cs.reverse = bytes cs := by
  induction cs with
  | nil => rfl
  | cons c cs ih =>
    rw [List.reverse_cons, bytes_append, ih, bytes, bytes, bytes]
    omega

theorem prefix_dropEndWhile (p : Char → Bool) (cs : List Char) : dropEndWhile p cs <+: cs := by
  rw [dropEndWhile, ← List.reverse_suffix, List.reverse_reverse]
  exact List.dropWhile_suffix p

end IdlWorkbench.Text
