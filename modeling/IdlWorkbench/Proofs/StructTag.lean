import IdlWorkbench.Format.Sequence
import IdlWorkbench.Proofs.Action
import IdlWorkbench.Validate
import Mathlib.Data.List.Basic

/-!
# The form of struct tags

A tag is a list of pairs with blanks between them: a key, a colon and a text between double quotes, in which a
backslash starts an escape. `WellFormed` says so as a grammar, beside the values that the escapes stand for. A tag is
read exactly if it is well formed, and then both ways to look a key up in it give the value of the first pair with
that key.
-/

namespace IdlWorkbench.StructTag

/-! ## The grammar -/

def IsKey (cs : List Char) : Prop := cs ≠ [] ∧ ∀ c ∈ cs, ¬ (c ≤ ' ' ∨ c = ':' ∨ c = '"' ∨ c = '\x7f')

inductive Escape : Char → Char → Prop
  | newline : Escape 'n' '\n'
  | tab : Escape 't' '\t'
  | carriageReturn : Escape 'r' '\r'
  | backslash : Escape '\\' '\\'
  | doubleQuote : Escape '"' '"'
  | quote : Escape '\'' '\''

/-- What stands between the quotes, and its value. -/
inductive Body : List Char → List Char → Prop
  | nil : Body [] []
  | char {c cs value} : c ≠ '"' → c ≠ '\\' → Body cs value → Body (c :: cs) (c :: value)
  | escape {c d cs value} : Escape c d → Body cs value → Body ('\\' :: c :: cs) (d :: value)

inductive IsPair : List Char → String × String → Prop
  | mk {key body value} : IsKey key → Body body value →
    IsPair (key ++ ':' :: '"' :: (body ++ ['"'])) (String.ofList key, String.ofList value)

/-- Pairs with one blank or more before each of them. -/
inductive Spaced : List Char → List (String × String) → Prop
  | nil : Spaced [] []
  | cons {n cs ds p ps} : IsPair cs p → Spaced ds ps → Spaced (List.replicate (n + 1) ' ' ++ cs ++ ds) (p :: ps)

/-- The text of a tag, and its pairs. -/
inductive WellFormed : List Char → List (String × String) → Prop
  | blank (n) : WellFormed (List.replicate n ' ') []
  | pairs {m n cs ds p ps} : IsPair cs p → Spaced ds ps →
    WellFormed (List.replicate m ' ' ++ cs ++ ds ++ List.replicate n ' ') (p :: ps)

/-! ## Values -/

theorem escape?_eq_some_iff {c d : Char} : Token.escape? c = some d ↔ Escape c d := by
  constructor
  · intro h
    unfold Token.escape? at h
    split at h <;> cases h <;> constructor
  · intro h
    cases h <;> rfl

/-- The closing quote comes first behind the body, and nowhere else can a body end. -/
theorem body_of_closing? {cs body rest : List Char} (h : closing? cs = some (body, rest)) :
    cs = body ++ '"' :: rest ∧ ∀ {value}, Token.unescape body = some value → Body body value := by
  induction cs using closing?.induct generalizing body with
  | case1 => cases h
  | case2 after =>
    rw [closing?] at h
    cases h
    refine ⟨rfl, fun hvalue => ?_⟩
    cases hvalue
    exact .nil
  | case3 c cs ih =>
    rw [closing?] at h
    obtain ⟨⟨inner, after⟩, hinner, heq⟩ := Option.map_eq_some_iff.mp h
    cases heq
    obtain ⟨rfl, hbody⟩ := ih hinner
    refine ⟨rfl, fun hvalue => ?_⟩
    rw [Token.unescape] at hvalue
    split at hvalue
    · rename_i d hd
      obtain ⟨value, hrest, rfl⟩ := Option.map_eq_some_iff.mp hvalue
      exact .escape (escape?_eq_some_iff.mp hd) (hbody hrest)
    · cases hvalue
  | case4 c cs hquote hpair ih =>
    rw [closing?.eq_4 c cs hquote hpair] at h
    obtain ⟨⟨inner, after⟩, hinner, heq⟩ := Option.map_eq_some_iff.mp h
    cases heq
    obtain ⟨rfl, hbody⟩ := ih hinner
    have hne : c ≠ '\\' := by
      rintro rfl
      cases inner with
      | nil => exact hpair _ _ rfl rfl
      | cons d inner => exact hpair _ _ rfl rfl
    refine ⟨rfl, fun hvalue => ?_⟩
    rw [Token.unescape, if_neg hne] at hvalue
    · obtain ⟨value, hrest, rfl⟩ := Option.map_eq_some_iff.mp hvalue
      exact .char hquote hne (hbody hrest)
    · exact fun _ _ h _ => hne h

theorem closing?_body (rest : List Char) : ∀ {body value : List Char},
    Body body value → closing? (body ++ '"' :: rest) = some (body, rest)
  | _, _, .nil => rfl
  | _, _, @Body.char c _ _ hquote hslash h => by
    rw [List.cons_append, closing?.eq_4 c _ hquote fun _ _ h _ => hslash h, closing?_body rest h]
    rfl
  | _, _, .escape _ h => by
    rw [List.cons_append, List.cons_append, closing?, closing?_body rest h]
    rfl

theorem unescape_body : ∀ {body value : List Char}, Body body value → Token.unescape body = some value
  | _, _, .nil => rfl
  | _, _, @Body.char c cs _ _ hslash h => by
    rw [Token.unescape.eq_3 c cs fun _ _ h _ => hslash h, if_neg hslash, unescape_body h]
    rfl
  | _, _, .escape hc h => by
    rw [Token.unescape, escape?_eq_some_iff.mpr hc, unescape_body h]
    rfl

/-! ## Pairs -/

theorem isKeyChar_iff {c : Char} : isKeyChar c = true ↔ ¬ (c ≤ ' ' ∨ c = ':' ∨ c = '"' ∨ c = '\x7f') := by
  have hdel : c.toNat = 0x7F ↔ c = '\x7f' := by
    rw [← Char.toNat_inj]
    rfl
  simp [isKeyChar, hdel, and_assoc]

variable {cs ds key rest : List Char} {p : String × String} {ps : List (String × String)}

theorem takeWhile_key (h : IsKey key) (rest : List Char) : (key ++ ':' :: rest).takeWhile isKeyChar = key := by
  rw [List.takeWhile_append_of_pos fun c hc => isKeyChar_iff.mpr (h.2 c hc)]
  exact List.append_nil _

theorem dropWhile_key (h : IsKey key) (rest : List Char) :
    (key ++ ':' :: rest).dropWhile isKeyChar = ':' :: rest := by
  rw [List.dropWhile_append_of_pos fun c hc => isKeyChar_iff.mpr (h.2 c hc)]
  rfl

/-- A pair is read up to its closing quote. -/
theorem pair_eq_ok_iff : pair cs = .ok (p, rest) ↔ ∃ ds, cs = ds ++ rest ∧ IsPair ds p := by
  constructor
  · intro h
    have hsplit : cs = cs.takeWhile isKeyChar ++ cs.dropWhile isKeyChar := List.takeWhile_append_dropWhile.symm
    have hchars : ∀ c ∈ cs.takeWhile isKeyChar, isKeyChar c = true := List.all_eq_true.mp List.all_takeWhile
    unfold pair at h
    generalize cs.takeWhile isKeyChar = key at h hsplit hchars
    dsimp only at h
    split at h
    · cases h
    · rename_i hkey
      have hkey : IsKey key := ⟨by simpa using hkey, fun c hc => isKeyChar_iff.mp (hchars c hc)⟩
      split at h
      · rename_i after hafter
        split at h
        · cases h
        · rename_i body rest' hclosing
          split at h
          · cases h
          · rename_i value hvalue
            cases h
            obtain ⟨hcut, hbody⟩ := body_of_closing? hclosing
            obtain ⟨chars, hchars, rfl⟩ := Option.map_eq_some_iff.mp hvalue
            refine ⟨_, ?_, .mk hkey (hbody hchars)⟩
            rw [hsplit, hafter, hcut]
            simp
      · cases h
      · cases h
  · rintro ⟨ds, rfl, ⟨hkey, hbody⟩⟩
    rename_i key body value
    have hcs : key ++ ':' :: '"' :: (body ++ ['"']) ++ rest = key ++ ':' :: ('"' :: (body ++ '"' :: rest)) := by simp
    have hempty : key.isEmpty = false := by simpa using hkey.1
    unfold pair
    rw [hcs, takeWhile_key hkey, dropWhile_key hkey]
    simp only [hempty, Bool.false_eq_true, if_false, closing?_body rest hbody, value?, unescape_body hbody,
      Option.map_some]

/-- A pair starts with its key. -/
theorem IsPair.head (h : IsPair ds p) : ∃ c cs, ds = c :: cs ∧ c ≠ ' ' := by
  obtain ⟨⟨hne, hkey⟩, -⟩ := h
  obtain ⟨c, cs, rfl⟩ := List.exists_cons_of_ne_nil hne
  exact ⟨c, _, rfl, fun hblank => hkey c List.mem_cons_self (Or.inl (hblank ▸ Char.le_refl _))⟩

theorem IsPair.length_lt (h : IsPair ds p) (m : Nat) (rest : List Char) :
    rest.length < (List.replicate m ' ' ++ (ds ++ rest)).length := by
  obtain ⟨c, cs, rfl, -⟩ := h.head
  simp only [List.length_append, List.length_cons]
  omega

/-! ## Blanks -/

theorem dropWhile_blanks (m : Nat) : (List.replicate m ' ').dropWhile (· = ' ') = [] := by simp

theorem dropWhile_led (m : Nat) {c : Char} (hc : c ≠ ' ') (cs : List Char) :
    (List.replicate m ' ' ++ c :: cs).dropWhile (· = ' ') = c :: cs := by
  rw [List.dropWhile_append_of_pos fun d hd => by simpa using List.eq_of_mem_replicate hd,
    List.dropWhile_cons_of_neg (by simpa using hc)]

/-- A text is nothing but blanks, or something else stands behind its first blanks. -/
theorem blank_or_led (cs : List Char) :
    (∃ m, cs = List.replicate m ' ') ∨ ∃ m c ds, cs = List.replicate m ' ' ++ c :: ds ∧ c ≠ ' ' := by
  induction cs with
  | nil => exact Or.inl ⟨0, rfl⟩
  | cons c cs ih =>
    by_cases hc : c = ' '
    · subst hc
      rcases ih with ⟨m, rfl⟩ | ⟨m, d, ds, rfl, hd⟩
      · exact Or.inl ⟨m + 1, rfl⟩
      · exact Or.inr ⟨m + 1, d, ds, rfl, hd⟩
    · exact Or.inr ⟨0, c, cs, rfl, hc⟩

theorem pairsWithin_blanks (n : Nat) (first : Bool) (m : Nat) :
    pairsWithin (n + 1) first (List.replicate m ' ') = .ok [] := by
  rw [pairsWithin, dropWhile_blanks]
  cases m <;> simp

theorem pairsWithin_led (n : Nat) (first : Bool) (m : Nat) {c : Char} (hc : c ≠ ' ') (cs : List Char) :
    pairsWithin (n + 1) first (List.replicate m ' ' ++ c :: cs) =
      if first = false ∧ m = 0 then .error .notSeparated
      else do
        let (p, rest) ← pair (c :: cs)
        return p :: (← pairsWithin n false rest) := by
  have hlength : (c :: cs).length = (List.replicate m ' ' ++ c :: cs).length ↔ m = 0 := by simp
  have hne : (List.replicate m ' ' ++ c :: cs).isEmpty = false := by simp
  rw [pairsWithin, dropWhile_led m hc]
  simp only [hne, Bool.false_eq_true, if_false, Bool.and_eq_true, Bool.not_eq_true', decide_eq_true_eq, hlength,
    List.isEmpty_cons]

theorem pairsWithin_nil_iff {n : Nat} {first : Bool} :
    pairsWithin (n + 1) first cs = .ok [] ↔ ∃ m, cs = List.replicate m ' ' := by
  constructor
  · intro h
    rcases blank_or_led cs with hblank | ⟨m, c, ds, rfl, hc⟩
    · exact hblank
    · rw [pairsWithin_led n first m hc] at h
      split at h
      · cases h
      · obtain ⟨⟨p, rest⟩, -, h⟩ := bind_eq_ok.mp h
        obtain ⟨ps, -, h⟩ := bind_eq_ok.mp h
        cases h
  · rintro ⟨m, rfl⟩
    exact pairsWithin_blanks n first m

theorem pairsWithin_cons_iff {n : Nat} {first : Bool} : pairsWithin (n + 1) first cs = .ok (p :: ps) ↔
    ∃ m ds rest, cs = List.replicate m ' ' ++ (ds ++ rest) ∧ (first = true ∨ 0 < m) ∧ IsPair ds p ∧
      pairsWithin n false rest = .ok ps := by
  constructor
  · intro h
    rcases blank_or_led cs with ⟨m, rfl⟩ | ⟨m, c, ds, rfl, hc⟩
    · rw [pairsWithin_blanks] at h
      cases h
    · rw [pairsWithin_led n first m hc] at h
      split at h
      · cases h
      · rename_i hseparated
        obtain ⟨⟨q, rest⟩, hpair, h⟩ := bind_eq_ok.mp h
        obtain ⟨qs, hrest, h⟩ := bind_eq_ok.mp h
        cases h
        obtain ⟨es, hes, hp⟩ := pair_eq_ok_iff.mp hpair
        refine ⟨m, es, rest, by rw [hes], ?_, hp, hrest⟩
        rcases first with _ | _
        · exact Or.inr (Nat.pos_of_ne_zero fun hm => hseparated ⟨rfl, hm⟩)
        · exact Or.inl rfl
  · rintro ⟨m, ds, rest, rfl, hseparated, hp, hrest⟩
    have hpair : pair (ds ++ rest) = .ok (p, rest) := pair_eq_ok_iff.mpr ⟨ds, rfl, hp⟩
    obtain ⟨c, es, rfl, hc⟩ := hp.head
    have hnot : ¬ (first = false ∧ m = 0) := by
      rintro ⟨rfl, rfl⟩
      simp at hseparated
    rw [List.cons_append] at hpair ⊢
    rw [pairsWithin_led n first m hc, if_neg hnot, hpair]
    exact bind_eq_ok.mpr ⟨_, rfl, bind_eq_ok.mpr ⟨ps, hrest, rfl⟩⟩

/-! ## Tags -/

def Following (cs : List Char) (ps : List (String × String)) : Prop :=
  ∃ ds n, cs = ds ++ List.replicate n ' ' ∧ Spaced ds ps

theorem following_nil_iff : Following cs [] ↔ ∃ m, cs = List.replicate m ' ' := by
  constructor
  · rintro ⟨_, n, rfl, ⟨⟩⟩
    exact ⟨n, rfl⟩
  · rintro ⟨m, rfl⟩
    exact ⟨[], m, rfl, .nil⟩

theorem following_cons_iff : Following cs (p :: ps) ↔
    ∃ m ds rest, cs = List.replicate m ' ' ++ (ds ++ rest) ∧ 0 < m ∧ IsPair ds p ∧ Following rest ps := by
  constructor
  · rintro ⟨_, n, rfl, h⟩
    cases h with
    | @cons k ds es _ _ hp hps => exact ⟨k + 1, ds, _, by simp, Nat.succ_pos k, hp, es, n, rfl, hps⟩
  · rintro ⟨m, ds, rest, rfl, hm, hp, es, n, rfl, hps⟩
    obtain ⟨k, rfl⟩ := Nat.exists_eq_add_one.mpr hm
    exact ⟨_, n, by simp, .cons (n := k) hp hps⟩

theorem wellFormed_nil_iff : WellFormed cs [] ↔ ∃ m, cs = List.replicate m ' ' := by
  constructor
  · rintro ⟨m⟩
    exact ⟨m, rfl⟩
  · rintro ⟨m, rfl⟩
    exact .blank m

theorem wellFormed_cons_iff : WellFormed cs (p :: ps) ↔
    ∃ m ds rest, cs = List.replicate m ' ' ++ (ds ++ rest) ∧ IsPair ds p ∧ Following rest ps := by
  constructor
  · intro h
    cases h with
    | @pairs m n ds es _ _ hp hps => exact ⟨m, ds, _, by simp, hp, es, n, rfl, hps⟩
  · rintro ⟨m, ds, rest, rfl, hp, es, n, rfl, hps⟩
    have h := WellFormed.pairs (m := m) (n := n) hp hps
    simpa using h

/-- There is fuel for every pair, since none of them is empty. -/
theorem pairsWithin_iff : ∀ {ps : List (String × String)} {n : Nat} {cs : List Char},
    cs.length < n → (pairsWithin n false cs = .ok ps ↔ Following cs ps)
  | _, 0, _, h => absurd h (Nat.not_lt_zero _)
  | [], n + 1, cs, _ => by rw [pairsWithin_nil_iff, following_nil_iff]
  | p :: ps, n + 1, cs, h => by
    rw [pairsWithin_cons_iff, following_cons_iff]
    constructor
    · rintro ⟨m, ds, rest, rfl, hm, hp, hps⟩
      have := hp.length_lt m rest
      exact ⟨m, ds, rest, rfl, hm.resolve_left Bool.false_ne_true, hp, (pairsWithin_iff (by omega)).mp hps⟩
    · rintro ⟨m, ds, rest, rfl, hm, hp, hps⟩
      have := hp.length_lt m rest
      exact ⟨m, ds, rest, rfl, Or.inr hm, hp, (pairsWithin_iff (by omega)).mpr hps⟩

/-- No blank has to stand before the first pair. -/
theorem pairsWithin_first_iff {n : Nat} (h : cs.length ≤ n) :
    pairsWithin (n + 1) true cs = .ok ps ↔ WellFormed cs ps := by
  cases ps with
  | nil => rw [pairsWithin_nil_iff, wellFormed_nil_iff]
  | cons p ps =>
    rw [pairsWithin_cons_iff, wellFormed_cons_iff]
    constructor
    · rintro ⟨m, ds, rest, rfl, -, hp, hps⟩
      have := hp.length_lt m rest
      exact ⟨m, ds, rest, rfl, hp, (pairsWithin_iff (by omega)).mp hps⟩
    · rintro ⟨m, ds, rest, rfl, hp, hps⟩
      have := hp.length_lt m rest
      exact ⟨m, ds, rest, rfl, Or.inl rfl, hp, (pairsWithin_iff (by omega)).mpr hps⟩

/-- A tag is read exactly if it is well formed, and its pairs are those of the grammar. -/
theorem ofString_eq_ok_iff (tag : String) (pairs : List (String × String)) :
    ofString tag = .ok ⟨pairs⟩ ↔ WellFormed tag.toList pairs := by
  rw [← pairsWithin_first_iff (Nat.le_refl _), ofString]
  cases pairsWithin (tag.toList.length + 1) true tag.toList with
  | error e => exact ⟨nofun, nofun⟩
  | ok ps => simp [Except.map]

example : ofString " pb:\"1\"  json:\"\\\"é\" " = .ok ⟨[("pb", "1"), ("json", "\"é")]⟩ := rfl
example : ofString "pb:\"1\\é\"" = .error .badValue := rfl
example : ofString "pb:\"1\"json:\"a\"" = .error .notSeparated := rfl

/-! ## Looking a key up -/

theorem findWithin_blanks (key : String) (n m : Nat) : findWithin key (n + 1) (List.replicate m ' ') = none := by
  rw [findWithin, dropWhile_blanks]
  rfl

theorem findWithin_pair (key : String) (n m : Nat) (h : IsPair ds p) (rest : List Char) :
    findWithin key (n + 1) (List.replicate m ' ' ++ (ds ++ rest)) = if p.1 =
      key then some p.2 else findWithin key n rest := by
  obtain ⟨c, cs, hds, hc⟩ := h.head
  obtain ⟨hkey, hbody⟩ := h
  rename_i name body value
  have hempty : name.isEmpty = false := by simpa using hkey.1
  have hcs : name ++ ':' :: '"' :: (body ++ ['"']) ++ rest = name ++ ':' :: ('"' :: (body ++ '"' :: rest)) := by simp
  have hdrop : (List.replicate m ' ' ++ (name ++ ':' :: '"' :: (body ++ ['"']) ++ rest)).dropWhile (· = ' ') =
      name ++ ':' :: ('"' :: (body ++ '"' :: rest)) := by
    rw [← hcs, hds, List.cons_append, dropWhile_led m hc]
  rw [findWithin, hdrop, takeWhile_key hkey, dropWhile_key hkey]
  simp only [hempty, Bool.false_eq_true, if_false, closing?_body rest hbody, value?, unescape_body hbody,
    Option.map_some]

/-- Where all pairs can be read, the search meets them one after the other. -/
theorem findWithin_eq (key : String) : ∀ {ps : List (String × String)} {n : Nat} {first : Bool} {cs : List Char},
    pairsWithin n first cs = .ok ps → findWithin key n cs = (ps.find? (·.1 = key)).map (·.2)
  | _, 0, _, _, h => by
    cases h
    rfl
  | [], n + 1, _, cs, h => by
    obtain ⟨m, rfl⟩ := pairsWithin_nil_iff.mp h
    exact findWithin_blanks key n m
  | p :: ps, n + 1, _, cs, h => by
    obtain ⟨m, ds, rest, rfl, -, hp, hps⟩ := pairsWithin_cons_iff.mp h
    rw [findWithin_pair key n m hp, findWithin_eq key hps, List.find?_cons]
    by_cases hkey : p.1 = key
    · rw [if_pos hkey, decide_eq_true hkey]
      rfl
    · rw [if_neg hkey, decide_eq_false hkey]

theorem pairsWithin_of_ofString {tag : String} {t : StructTag} (h : ofString tag = .ok t) :
    pairsWithin (tag.toList.length + 1) true tag.toList = .ok t.pairs := by
  rw [ofString] at h
  cases hpairs : pairsWithin (tag.toList.length + 1) true tag.toList with
  | error e =>
    rw [hpairs] at h
    cases h
  | ok ps =>
    rw [hpairs] at h
    cases h
    rfl

/-- A lookup that reads no further than it has to finds what the pairs of the whole tag hold. -/
theorem find?_of_ofString {tag : String} {t : StructTag} (h : ofString tag = .ok t) (key : String) :
    find? tag key = t.get? key := findWithin_eq key (pairsWithin_of_ofString h)

/-- The number that a formatter goes by, as the pairs of the whole tag have it. -/
theorem ownNumber_of_ofString {tag : String} {t : StructTag} (h : ofString tag = .ok t) {f : Field} {token : Token}
    (htoken : f.tag = some token) (htag : Token.unquote token.text = some tag) (n : Int) :
    Format.ownNumber f = .ok (some n) ↔ (Violation.ReadTag.mk token.range t).sequence? = some n := by
  have hvalue : Format.tagValue (some token) = tag := by
    rw [Format.tagValue, Option.bind_some, htag, Option.getD_some]
  rw [Format.ownNumber, htoken]
  simp only [hvalue, find?_of_ofString h, Violation.ReadTag.sequence?, Violation.ReadTag.value?]
  cases t.get? "pb" with
  | none => simp
  | some value =>
    cases hempty : value.isEmpty with
    | true => simp [Option.filter, hempty]
    | false => cases hn : Text.int64? value <;> simp [Option.filter, hempty, hn]

/-- On a well-formed tag a lookup by the pairs and one in the bare text agree for every key, so the number of a field
is the same whether its struct is checked or formatted. -/
theorem lookups_agree {tag : String} {t : StructTag} (h : ofString tag = .ok t) :
    (∀ key, find? tag key = t.get? key) ∧
    ∀ (f : Field) (token : Token), f.tag = some token → Token.unquote token.text = some tag →
      ∀ n, Format.ownNumber f = .ok (some n) ↔ (Violation.ReadTag.mk token.range t).sequence? = some n :=
  ⟨find?_of_ofString h, fun _ _ htoken htag => ownNumber_of_ofString h htoken htag⟩

/-- The first of two numbers is the one that both lookups give. -/
theorem lookups_agree_sample :
    find? " json:\"\\\"é\"  pb:\"02\" pb:\"3\" " "pb" = some "02" ∧
    Format.ownNumber ⟨⟨0, 0⟩, none, [], .missing, some ⟨.rawString, "` json:\"\\\"é\"  pb:\"02\" pb:\"3\" `", 7⟩,
      none⟩ =
      .ok (some 2) := by
  have h : ofString " json:\"\\\"é\"  pb:\"02\" pb:\"3\" " = .ok ⟨[("json", "\"é"), ("pb", "02"), ("pb", "3")]⟩ :=
    rfl
  obtain ⟨hfind, hnumber⟩ := lookups_agree h
  exact ⟨hfind "pb", (hnumber _ _ rfl (by decide +kernel) 2).mpr (by decide +kernel)⟩

end IdlWorkbench.StructTag
