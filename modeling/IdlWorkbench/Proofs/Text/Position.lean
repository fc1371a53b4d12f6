import IdlWorkbench.Proofs.Text.Bytes
import IdlWorkbench.Text.Position

/-!
# Editor positions and byte offsets

The position of an offset is found by going on from the start of the text, one character at a time, as long as
characters lie before the offset. Every character moves it on, so boundaries of characters have different positions,
in order. The way back goes to the start of the line and from there to the first boundary that reaches the column.
-/

namespace IdlWorkbench

def Position.Before (p q : Position) : Prop := p.line < q.line ∨ p.line = q.line ∧ p.character < q.character

theorem Position.Before.trans {p q r : Position} (h : p.Before q) (h' : q.Before r) : p.Before r := by
  unfold Position.Before at *
  omega

namespace Text

/-! ## Going on by characters -/

def advance (p : Position) (c : Char) : Position :=
  if c = '\n' then ⟨p.line + 1, 0⟩ else ⟨p.line, p.character + units c⟩

def positionAfter (cs : List Char) : Position := cs.foldl advance ⟨0, 0⟩

def width : List Char → Nat
  | [] => 0
  | c :: cs => units c + width cs

variable {cs lead row post : List Char} {p : Position} {n : Nat}

theorem units_pos (c : Char) : 0 < units c := by
  unfold units
  split <;> decide

theorem before_advance (p : Position) (c : Char) : p.Before (advance p c) := by
  unfold advance Position.Before
  split
  · exact Or.inl (Nat.lt_succ_self _)
  · exact Or.inr ⟨rfl, Nat.lt_add_of_pos_right (units_pos c)⟩

theorem before_foldl (c : Char) : ∀ (cs : List Char) (p : Position), p.Before ((c :: cs).foldl advance p)
  | [], p => before_advance p c
  | d :: cs, p => (before_advance p c).trans (before_foldl d cs _)

theorem line_foldl : ∀ (cs : List Char) (p : Position), (cs.foldl advance p).line = p.line + cs.count '\n'
  | [], _ => rfl
  | c :: cs, p => by
    rw [List.foldl_cons, line_foldl cs, advance, List.count_cons]
    by_cases hc : c = '\n'
    · rw [if_pos hc, if_pos (beq_iff_eq.mpr hc)]
      dsimp only
      omega
    · rw [if_neg hc, if_neg fun heq => hc (beq_iff_eq.mp heq), Nat.add_zero]

/-- Within a line the column grows by the width of what is passed. -/
theorem foldl_of_not_mem : ∀ {row : List Char} {p : Position}, '\n' ∉ row →
    row.foldl advance p = ⟨p.line, p.character + width row⟩
  | [], _, _ => rfl
  | c :: row, p, h => by
    obtain ⟨hc, hrow⟩ := not_or.mp (mt List.mem_cons.mpr h)
    rw [List.foldl_cons, advance, if_neg (Ne.symm hc), foldl_of_not_mem hrow, width, Nat.add_assoc]

theorem positionFrom_eq : ∀ (cs : List Char) (p : Position) (n : Nat),
    positionFrom p cs n = (takeBytes n cs).foldl advance p
  | [], _, _ => rfl
  | c :: cs, p, n => by
    rw [positionFrom, takeBytes]
    by_cases hn : n < c.utf8Size
    · rw [if_pos hn, if_neg (Nat.not_le.mpr hn)]
      rfl
    · rw [if_neg hn, if_pos (Nat.not_lt.mp hn), List.foldl_cons, advance]
      by_cases hc : c = '\n'
      · rw [if_pos hc, if_pos hc, positionFrom_eq, hc]
        rfl
      · rw [if_neg hc, if_neg hc, positionFrom_eq]

/-- The position of an offset is the one behind the characters that lie before it. -/
theorem position_eq (text : String) (n : Nat) : position text n = positionAfter (takeBytes n text.toList) :=
  positionFrom_eq _ _ _

theorem position_bytes {text : String} (h : text.toList = lead ++ post) :
    position text (bytes lead) = positionAfter lead := by
  rw [position_eq, h, takeBytes_bytes]

/-! ## Boundaries -/

theorem isBoundary_iff : IsBoundary n cs ↔ ∃ lead post, cs = lead ++ post ∧ bytes lead = n := by
  constructor
  · intro h
    obtain ⟨post, hpost⟩ := prefix_takeBytes n cs
    exact ⟨takeBytes n cs, post, hpost.symm, h⟩
  · rintro ⟨lead, post, rfl, rfl⟩
    rw [IsBoundary, takeBytes_bytes]

/-- Of two boundaries, the earlier one leaves characters out that the later one takes. -/
theorem takeBytes_of_lt {m : Nat} (hm : IsBoundary m cs) (hn : IsBoundary n cs) (h : m < n) :
    ∃ c between, takeBytes n cs = takeBytes m cs ++ c :: between := by
  obtain ⟨between, hbetween⟩ := prefix_of_bytes_le (prefix_takeBytes m cs) (prefix_takeBytes n cs)
    (by rw [hm, hn]; exact Nat.le_of_lt h)
  cases between with
  | nil =>
    rw [List.append_nil] at hbetween
    rw [IsBoundary, ← hbetween, hm] at hn
    omega
  | cons c between => exact ⟨c, between, hbetween.symm⟩

/-- Later boundaries have later positions. -/
theorem position_before {text : String} {m n : Nat} (hm : IsBoundary m text.toList) (hn : IsBoundary n text.toList)
    (h : m < n) :
    (position text m).Before (position text n) := by
  obtain ⟨c, between, hbetween⟩ := takeBytes_of_lt hm hn h
  rw [position_eq, position_eq, hbetween, positionAfter, positionAfter, List.foldl_append]
  exact before_foldl c between _

/-- An offset inside a character reaches no further than its start. -/
theorem takeBytes_inside {c : Char} : ∀ {before : List Char} {n : Nat},
    bytes before ≤ n → n < bytes before + c.utf8Size →
    takeBytes n (before ++ c :: post) = before
  | [], n, _, h => by
    rw [List.nil_append, takeBytes, if_neg]
    simpa [bytes] using h
  | d :: before, n, hle, hlt => by
    rw [bytes] at hle hlt
    rw [List.cons_append, takeBytes, if_pos (by omega), takeBytes_inside (by omega) (by omega)]

theorem takeBytes_past : ∀ {cs : List Char} {n : Nat}, bytes cs ≤ n → takeBytes n cs = cs
  | [], _, _ => rfl
  | c :: cs, n, h => by
    rw [bytes] at h
    rw [takeBytes, if_pos (by omega), takeBytes_past (by omega)]

theorem units_le (c : Char) : units c ≤ c.utf8Size := by
  unfold units
  split
  · exact c.utf8Size_pos
  · rename_i hwide
    unfold Char.utf8Size
    dsimp only
    split
    · rename_i hval
      exact absurd (Nat.lt_of_le_of_lt (UInt32.le_iff_toNat_le.mp hval) (by decide)) hwide
    · split
      · exact Nat.le_refl _
      · split <;> decide

theorem foldl_le : ∀ (cs : List Char) (p : Position),
    (cs.foldl advance p).line + (cs.foldl advance p).character ≤ p.line + p.character + bytes cs
  | [], _ => Nat.le_refl _
  | c :: cs, p => by
    have hstep : (advance p c).line + (advance p c).character ≤ p.line + p.character + c.utf8Size := by
      have hunits := units_le c
      have hpos := c.utf8Size_pos
      unfold advance
      split <;> dsimp only <;> omega
    have := foldl_le cs (advance p c)
    rw [List.foldl_cons, bytes]
    omega

/-- Numbers that hold the length of a text hold every position in it. -/
theorem position_le (text : String) (n : Nat) :
    (position text n).line + (position text n).character ≤ text.utf8ByteSize := by
  have hbytes := bytes_le_of_prefix (prefix_takeBytes n text.toList)
  have hfold := foldl_le (takeBytes n text.toList) ⟨0, 0⟩
  rw [bytes_toList] at hbytes
  rw [position_eq, positionAfter]
  dsimp only at hfold
  omega

/-! ## Lines -/

theorem fromLine_eq_none_iff : ∀ {cs : List Char} {line before : Nat},
    fromLine line before cs = none ↔ cs.count '\n' < line
  | _, 0, _ => by simp [fromLine]
  | [], line + 1, _ => by simp [fromLine]
  | c :: cs, line + 1, before => by
    rw [fromLine, fromLine_eq_none_iff, List.count_cons]
    by_cases hc : c = '\n'
    · simp [hc]
    · simp [hc]

/-- A line starts at column 0 behind as many line breaks as its number says. -/
theorem fromLine_eq_some : ∀ {cs rest : List Char} {line before start : Nat},
    fromLine line before cs = some (start, rest) →
    ∃ lead, cs = lead ++ rest ∧ start = before + bytes lead ∧
      (lead = [] ∧ line = 0 ∨ ∀ p : Position, lead.foldl advance p = ⟨p.line + line, 0⟩)
  | cs, rest, 0, before, start, h => by
    rw [fromLine] at h
    cases h
    exact ⟨[], rfl, rfl, Or.inl ⟨rfl, rfl⟩⟩
  | [], _, _ + 1, _, _, h => by cases h
  | c :: cs, rest, line + 1, before, start, h => by
    rw [fromLine] at h
    obtain ⟨lead, rfl, rfl, hlead⟩ := fromLine_eq_some h
    refine ⟨c :: lead, rfl, by rw [bytes]; omega, Or.inr fun p => ?_⟩
    rw [List.foldl_cons, advance]
    by_cases hc : c = '\n'
    · rw [if_pos hc] at hlead ⊢
      rcases hlead with ⟨rfl, rfl⟩ | hlead
      · rfl
      · rw [hlead, Nat.add_assoc, Nat.add_comm 1]
    · rw [if_neg hc] at hlead ⊢
      rcases hlead with ⟨-, hline⟩ | hlead
      · cases hline
      · rw [hlead]

/-- The characters of a line before a column: none of them reaches it, and the line ends there or the column is
reached. -/
theorem bytesBefore_eq : ∀ (character : Nat) (rest : List Char), ∃ row post, rest = row ++ post ∧
    bytesBefore character rest = bytes row ∧ '\n' ∉ row ∧ (∀ c ∈ post.head?, c = '\n' ∨ character ≤ width row) ∧
    ∀ lead c more, row = lead ++ c :: more → width lead < character
  | _, [] => ⟨[], [], rfl, rfl, List.not_mem_nil, by simp, by simp⟩
  | character, c :: rest => by
    rw [bytesBefore]
    by_cases hstop : c = '\n' ∨ character = 0
    · have hnone : (c = '\n' || character = 0) = true := by simpa using hstop
      refine ⟨[], c :: rest, rfl, by
        rw [if_pos hnone, bytes], List.not_mem_nil, fun d hd => ?_, fun lead d more h => ?_⟩
      · obtain rfl : c = d := Option.some.inj hd
        refine hstop.imp id fun hzero => ?_
        rw [hzero]
        exact Nat.zero_le _
      · cases lead <;> cases h
    · obtain ⟨hc, h0⟩ := not_or.mp hstop
      have hnone : ¬ (c = '\n' || character = 0) = true := by simpa using hstop
      obtain ⟨row, post, rfl, hbytes, hrow, hend, hfirst⟩ := bytesBefore_eq (character - units c) rest
      refine ⟨c :: row, post, rfl, by rw [if_neg hnone, hbytes, bytes], ?_, fun d hd => ?_, fun lead d more h => ?_⟩
      · exact mt List.mem_cons.mp (not_or.mpr ⟨Ne.symm hc, hrow⟩)
      · refine (hend d hd).imp id fun hreach => ?_
        rw [width]
        omega
      · cases lead with
        | nil => exact Nat.pos_of_ne_zero h0
        | cons e lead =>
          obtain ⟨rfl, hsplit⟩ := List.cons.inj h
          have := hfirst lead d more hsplit
          rw [width]
          omega

def OnLine (text : String) (line n : Nat) : Prop := IsBoundary n text.toList ∧ (position text n).line = line

/-- The first boundary on the line of a position that reaches its column, or the last one if there is none. -/
structure Nearest (text : String) (p : Position) (n : Nat) : Prop where
  onLine : OnLine text p.line n
  reaches : p.character ≤ (position text n).character ∨ ∀ m, OnLine text p.line m → m ≤ n
  first : ∀ m, OnLine text p.line m → p.character ≤ (position text m).character → n ≤ m

section
variable {text : String} (htext : text.toList = lead ++ row ++ post) (hlead : positionAfter lead = ⟨p.line, 0⟩)
include hlead

theorem positionAfter_row (hrow : '\n' ∉ row) : positionAfter (lead ++ row) = ⟨p.line, width row⟩ := by
  rw [positionAfter, List.foldl_append, ← positionAfter, hlead, foldl_of_not_mem hrow, Nat.zero_add]

include htext

/-- Before a line break, or the end of the text, stands the last boundary of a line. -/
theorem le_of_onLine (hend : ∀ c ∈ post.head?, c = '\n') {m : Nat} (hm : OnLine text p.line m) :
    m ≤ bytes (lead ++ row) := by
  refine Nat.not_lt.mp fun hlt => ?_
  obtain ⟨c, between, hbetween⟩ := takeBytes_of_lt (isBoundary_iff.mpr ⟨_, _, htext, rfl⟩) hm.1 hlt
  rw [htext, takeBytes_bytes] at hbetween
  obtain ⟨rest, hrest⟩ := prefix_takeBytes m text.toList
  rw [htext, hbetween, List.append_assoc (lead ++ row)] at hrest
  have hpost : post = c :: between ++ rest := (List.append_cancel_left hrest).symm
  have hline := hm.2
  rw [position_eq, htext, hbetween, positionAfter, List.append_assoc, List.foldl_append, ← positionAfter, hlead,
    line_foldl,
    List.count_append, List.count_cons, if_pos (beq_iff_eq.mpr (hend c (by rw [hpost]; rfl)))] at hline
  dsimp only at hline
  omega

/-- A boundary on a line that stands before others stands behind a smaller part of the line. -/
theorem exists_of_onLine (hrow : '\n' ∉ row) {m : Nat} (hm : OnLine text p.line m) (hlt : m < bytes (lead ++ row)) :
    ∃ passed c more, row = passed ++ c :: more ∧ (position text m).character = width passed := by
  have htext' : text.toList = lead ++ (row ++ post) := by rw [htext, List.append_assoc]
  have hbehind : bytes lead ≤ m := by
    refine Nat.not_lt.mp fun hbefore => ?_
    have hposition := position_before hm.1 (isBoundary_iff.mpr ⟨_, _, htext', rfl⟩) hbefore
    rw [position_bytes htext', hlead, Position.Before, hm.2] at hposition
    dsimp only at hposition
    omega
  obtain ⟨c, more, hmore⟩ := takeBytes_of_lt hm.1 (isBoundary_iff.mpr ⟨_, _, htext, rfl⟩) hlt
  obtain ⟨passed, hpassed⟩ := prefix_of_bytes_le ⟨_, htext'.symm⟩ (prefix_takeBytes m text.toList) (by rwa [hm.1])
  rw [← hpassed, htext, takeBytes_bytes, List.append_assoc] at hmore
  have hsplit : row = passed ++ c :: more := List.append_cancel_left hmore
  have hnot : '\n' ∉ passed := fun h => hrow (hsplit ▸ List.mem_append_left _ h)
  exact ⟨passed, c, more, hsplit, by rw [position_eq, ← hpassed, positionAfter_row hlead hnot]⟩

theorem nearest_of_split (hrow : '\n' ∉ row) (hend : ∀ c ∈ post.head?, c = '\n' ∨ p.character ≤ width row)
    (hfirst : ∀ passed c more, row = passed ++ c :: more → width passed < p.character) :
    Nearest text p (bytes (lead ++ row)) := by
  have hhere : position text (bytes (lead ++ row)) = ⟨p.line, width row⟩ := by
    rw [position_bytes htext, positionAfter_row hlead hrow]
  refine ⟨⟨isBoundary_iff.mpr ⟨_, _, htext, rfl⟩, by rw [hhere]⟩, ?_, fun m hm hreach => Nat.not_lt.mp fun hlt => ?_⟩
  · rw [hhere]
    by_cases hreach : p.character ≤ width row
    · exact Or.inl hreach
    · exact Or.inr fun m => le_of_onLine htext hlead fun c hc => (hend c hc).resolve_right hreach
  · obtain ⟨passed, c, more, hsplit, hposition⟩ := exists_of_onLine htext hlead hrow hm hlt
    rw [hposition] at hreach
    exact Nat.not_lt.mpr hreach (hfirst passed c more hsplit)

end

theorem nearest_of_offsetAt? {text : String} {p : Position} (h : offsetAt? text p = some n) : Nearest text p n := by
  obtain ⟨⟨start, rest⟩, hline, rfl⟩ := Option.map_eq_some_iff.mp h
  obtain ⟨lead, htext, rfl, hlead⟩ := fromLine_eq_some hline
  obtain ⟨row, post, rfl, hbytes, hrow, hend, hfirst⟩ := bytesBefore_eq p.character rest
  have hposition : positionAfter lead = ⟨p.line, 0⟩ := by
    rcases hlead with ⟨rfl, hzero⟩ | hlead
    · rw [hzero]
      rfl
    · rw [positionAfter, hlead, Nat.zero_add]
  dsimp only
  rw [hbytes, Nat.zero_add, ← bytes_append]
  exact nearest_of_split (by rw [htext, List.append_assoc]) hposition hrow hend hfirst

theorem offsetAt?_eq_none_iff {text : String} : offsetAt? text p = none ↔ lineCount text ≤ p.line := by
  rw [offsetAt?, Option.map_eq_none_iff, fromLine_eq_none_iff, lineCount, Nat.lt_iff_add_one_le]

/-- Every boundary is the offset of its own position. -/
theorem offsetAt?_position {text : String} (h : IsBoundary n text.toList) :
    offsetAt? text (position text n) = some n := by
  cases hat : offsetAt? text (position text n) with
  | none =>
    obtain ⟨post, hpost⟩ := prefix_takeBytes n text.toList
    have hline := offsetAt?_eq_none_iff.mp hat
    have hcount : (takeBytes n text.toList).count '\n' ≤ text.toList.count '\n' :=
      (prefix_takeBytes n text.toList).sublist.count_le _
    rw [position_eq, positionAfter, line_foldl, lineCount] at hline
    dsimp only at hline
    omega
  | some m =>
    have hnearest := nearest_of_offsetAt? hat
    have hle : m ≤ n := hnearest.first n ⟨h, rfl⟩ (Nat.le_refl _)
    refine congrArg some (Nat.le_antisymm hle ?_)
    rcases hnearest.reaches with hreach | hlast
    · refine Nat.not_lt.mp fun hlt => ?_
      have hbefore := position_before hnearest.onLine.1 h hlt
      have hline := hnearest.onLine.2
      unfold Position.Before at hbefore
      omega
    · exact hlast n ⟨h, rfl⟩

/-- Positions grow with the boundaries of characters, each boundary is found again by its position, and every other
offset has the position of the boundary before it. The way back finds the nearest boundary on every line there is. -/
theorem positions_and_offsets (text : String) :
    (∀ n, (position text n).line + (position text n).character ≤ text.utf8ByteSize) ∧
    (∀ m n, IsBoundary m text.toList → IsBoundary n text.toList → m < n →
      (position text m).Before (position text n)) ∧
    (∀ n, IsBoundary n text.toList → offsetAt? text (position text n) = some n) ∧
    (∀ before c after n, text.toList = before ++ c :: after → bytes before ≤ n → n < bytes before + c.utf8Size →
      position text n = position text (bytes before)) ∧
    (∀ n, text.utf8ByteSize ≤ n → position text n = position text text.utf8ByteSize) ∧
    (∀ p, offsetAt? text p = none ↔ lineCount text ≤ p.line) ∧
    ∀ p n, offsetAt? text p = some n → Nearest text p n := by
  refine ⟨position_le text, fun m n => position_before, fun n => offsetAt?_position,
    fun before c after n htext hle hlt => ?_, fun n hn => ?_,
    fun p => offsetAt?_eq_none_iff, fun p n => nearest_of_offsetAt?⟩
  · rw [position_bytes htext, position_eq, htext, takeBytes_inside hle hlt]
  · rw [position_eq, position_eq, ← bytes_toList, takeBytes_past (Nat.le_refl _),
      takeBytes_past (bytes_toList text ▸ hn)]

/-- A line with a character of two units and a carriage return, and a last line without a break. -/
theorem positions_and_offsets_sample :
    (position "a𝄞\r\né" 1).Before (position "a𝄞\r\né" 5) ∧ offsetAt? "a𝄞\r\né" (position "a𝄞\r\né" 5) = some 5 ∧
    position "a𝄞\r\né" 3 = position "a𝄞\r\né" 1 ∧ position "a𝄞\r\né" 12 = position "a𝄞\r\né" 9 ∧
    offsetAt? "a𝄞\r\né" ⟨2, 0⟩ = none ∧ Nearest "a𝄞\r\né" ⟨0, 2⟩ 5 := by
  obtain ⟨-, hbefore, hback, hinside, hpast, hnone, hnearest⟩ := positions_and_offsets "a𝄞\r\né"
  exact ⟨hbefore 1 5 (by decide +kernel) (by decide +kernel) (by decide), hback 5 (by decide +kernel),
    hinside ['a'] '𝄞' ['\r', '\n', 'é'] 3 (by decide +kernel) (by decide +kernel) (by decide +kernel),
    hpast 12 (by decide +kernel), (hnone ⟨2, 0⟩).mpr (by decide +kernel), hnearest ⟨0, 2⟩ 5 (by decide +kernel)⟩

end Text

end IdlWorkbench
