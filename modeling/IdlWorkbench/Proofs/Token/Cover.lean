import IdlWorkbench.Token.Scan

/-!
# Tokens cover their text

`scan` cuts a text without losing or repeating a character: no token is empty, the token texts in order
are the text, and each token starts where the one before it stops.
-/

namespace IdlWorkbench

theorem Text.bytes_eq : ∀ cs : List Char, Text.bytes cs = (String.ofList cs).utf8ByteSize
  | [] => by simp [Text.bytes]
  | c :: cs => by
    rw [Text.bytes, Text.bytes_eq cs, String.ofList_cons, String.utf8ByteSize_append, String.utf8ByteSize_singleton]

namespace Token

/-- Each token starts where the one before it stops, the first one at `start`. -/
def Chained : (start : Nat) → List Token → Prop
  | _, [] => True
  | start, t :: ts => t.offset = start ∧ Chained t.stop ts

theorem Chained.append_right : ∀ {start : Nat} {ts us : List Token},
    Chained start (ts ++ us) → Chained (start + (String.join (ts.map Token.text)).utf8ByteSize) us
  | _, [], _, h => by simpa using h
  | start, t :: ts, us, h => by
    obtain ⟨ht, hts⟩ := h
    have := hts.append_right
    rw [Token.stop, ht] at this
    simpa [String.utf8ByteSize_append, Nat.add_assoc] using this

theorem Chained.append : ∀ {start : Nat} {ts us : List Token}, Chained start ts →
    Chained (start + (String.join (ts.map Token.text)).utf8ByteSize) us → Chained start (ts ++ us)
  | _, [], _, _, h => by simpa using h
  | start, t :: ts, us, ⟨ht, hts⟩, h => by
    refine ⟨ht, hts.append ?_⟩
    rw [Token.stop, ht]
    simpa [String.utf8ByteSize_append, Nat.add_assoc] using h

theorem scan_ne_empty : ∀ (cs : List Char) (offset skip : Nat), ∀ t ∈ scan offset skip cs, t.text ≠ ""
  | [], _, _, t, ht => by simp [scan] at ht
  | _ :: cs, offset, skip + 1, t, ht => by
    rw [scan] at ht
    exact scan_ne_empty cs offset skip t ht
  | c :: cs, offset, 0, t, ht => by
    rw [scan] at ht
    rcases List.mem_cons.mp ht with rfl | ht
    · intro h
      have := congrArg String.toList h
      simp at this
    · exact scan_ne_empty cs _ _ t ht

theorem scan_chars : ∀ (cs : List Char) (offset skip : Nat),
    (scan offset skip cs).flatMap (·.text.toList) = cs.drop skip
  | [], _, _ => by simp [scan]
  | _ :: cs, offset, skip + 1 => by rw [scan, scan_chars cs, List.drop_succ_cons]
  | c :: cs, offset, 0 => by
    rw [scan, List.flatMap_cons, scan_chars cs]
    simp [List.take_append_drop]

theorem scan_chained : ∀ (cs : List Char) (offset skip : Nat), Chained offset (scan offset skip cs)
  | [], _, _ => by simp [scan, Chained]
  | _ :: cs, offset, skip + 1 => by rw [scan]; exact scan_chained cs offset skip
  | c :: cs, offset, 0 => by
    rw [scan]
    refine ⟨rfl, ?_⟩
    rw [Text.bytes_eq]
    exact scan_chained cs _ _

theorem ne_empty_of_mem_tokenize {text : String} : ∀ t ∈ tokenize text, t.text ≠ "" := scan_ne_empty text.toList 0 0

theorem join_tokenize (text : String) : String.join ((tokenize text).map Token.text) = text := by
  apply String.toList_injective
  rw [String.toList_join, List.flatMap_map]
  exact scan_chars text.toList 0 0

theorem tokenize_offset {text : String} {before after : List Token} {t : Token}
    (h : tokenize text = before ++ t :: after) :
    t.offset = (String.join (before.map Token.text)).utf8ByteSize := by
  have hc : Chained 0 (tokenize text) := scan_chained text.toList 0 0
  rw [h] at hc
  have := hc.append_right.1
  rwa [Nat.zero_add] at this

end Token

end IdlWorkbench
