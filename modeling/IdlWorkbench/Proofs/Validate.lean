import IdlWorkbench.Proofs.Grammar.FieldTags
import IdlWorkbench.Proofs.Table
import IdlWorkbench.Validate
import Mathlib.Data.List.Flatten
import Mathlib.Data.List.Induction

/-!
# Which fields share a number or a name

The rules on the values of tags look at the tags of one struct that can be read, each beside the ones before it and
behind it. A number is compared as an integer and reported on every field that shares it; a json name is reported on
the later fields only. No two fields have their tags at the same place, so the reports at the place of a tag are
those of its field.
-/

namespace IdlWorkbench

def Rule.isOnValues : Rule → Bool
  | numericSequence _ | uniqueSequence _ | uniqueJson _ => true
  | _ => false

namespace Violation

deriving instance DecidableEq for ReadTag

def readTag? (f : Field) : Option ReadTag :=
  if f.isEmbedded then none
  else f.tag.bind fun token =>
    (Token.unquote token.text).bind fun raw => (StructTag.ofString raw).toOption.map fun tag => ⟨token.range, tag⟩

def readTags (fields : List Field) : List ReadTag := fields.filterMap readTag?

namespace ReadTag

/-- Something stands as the number, and it is none. -/
def HasBadNumber (t : ReadTag) : Prop := (t.value? "pb").isSome ∧ t.sequence? = none

def RepeatsName (t : ReadTag) (earlier : List ReadTag) : Prop :=
  (t.value? "json").isSome ∧ ∃ u ∈ earlier, u.value? "json" = t.value? "json"

def SharesNumber (t : ReadTag) (others : List ReadTag) : Prop :=
  t.sequence?.isSome ∧ ∃ u ∈ others, u.sequence? = t.sequence?

instance (t : ReadTag) : Decidable t.HasBadNumber := inferInstanceAs (Decidable (_ ∧ _))

instance (t : ReadTag) (earlier : List ReadTag) : Decidable (t.RepeatsName earlier) :=
  inferInstanceAs (Decidable (_ ∧ _))

instance (t : ReadTag) (others : List ReadTag) : Decidable (t.SharesNumber others) :=
  inferInstanceAs (Decidable (_ ∧ _))

def text (t : ReadTag) (key : String) : String := (t.value? key).getD ""

def rulesAfter (earlier : List ReadTag) (t : ReadTag) : List Rule :=
  (if t.HasBadNumber then [.numericSequence (t.text "pb")] else []) ++
    if t.RepeatsName earlier then [.uniqueJson (t.text "json")] else []

/-- The rules that a tag breaks, beside those before it and behind it. -/
def brokenRules (before : List ReadTag) (t : ReadTag) (after : List ReadTag) : List Rule :=
  t.rulesAfter before ++ if t.SharesNumber (before ++ after) then [.uniqueSequence (t.text "pb")] else []

theorem rulesAfter_congr {earlier earlier' : List ReadTag} (h : ∀ u, u ∈ earlier ↔ u ∈ earlier') (t : ReadTag) :
    t.rulesAfter earlier = t.rulesAfter earlier' := by
  have hrepeats : t.RepeatsName earlier ↔ t.RepeatsName earlier' := by simp only [RepeatsName, h]
  simp only [rulesAfter, hrepeats]

end ReadTag

/-! ## Lists with one part that counts -/

/-- Of the parts of a list only one has anything. -/
theorem flatMap_of_split {α β : Type} {f : α → List β} {a : α} {as before after : List α}
    (h : as = before ++ a :: after)
    (hnil : ∀ b ∈ before ++ after, f b = []) : as.flatMap f = f a := by
  have hbefore : before.flatMap f = [] := List.flatMap_eq_nil_iff.mpr fun b hb => hnil b (List.mem_append_left _ hb)
  have hafter : after.flatMap f = [] := List.flatMap_eq_nil_iff.mpr fun b hb => hnil b (List.mem_append_right _ hb)
  rw [h, List.flatMap_append, List.flatMap_cons, hbefore, hafter, List.nil_append, List.append_nil]

theorem ne_of_split {α β : Type} {f : α → β} {a b : α} {as before after : List α} (h : as = before ++ a :: after)
    (hnodup : (as.map f).Nodup) (hb : b ∈ before ++ after) : f b ≠ f a := by
  rw [h, List.map_append, List.map_cons, List.nodup_middle, ← List.map_append] at hnodup
  exact fun heq => (List.nodup_cons.mp hnodup).1 (List.mem_map.mpr ⟨b, hb, heq⟩)

/-! ## Reports at a place -/

def rulesAt (range : ByteRange) (faults : List (ByteRange × Rule)) : List Rule :=
  (faults.filter fun p => p.1 = range ∧ p.2.isOnValues).map Prod.snd

section
variable {fields : List Field} {range : ByteRange} {t : ReadTag} {before after tags : List ReadTag}

theorem rulesAt_append (faults faults' : List (ByteRange × Rule)) :
    rulesAt range (faults ++ faults') = rulesAt range faults ++ rulesAt range faults' := by
  simp [rulesAt]

theorem rulesAt_flatMap {α : Type} (as : List α) (f : α → List (ByteRange × Rule)) :
    rulesAt range (as.flatMap f) = as.flatMap fun a => rulesAt range (f a) := by
  simp [rulesAt, List.filter_flatMap, List.map_flatMap]

theorem rulesAt_filter (faults : List (ByteRange × Rule)) :
    rulesAt range (faults.filter (·.2.isOnValues)) = rulesAt range faults := by
  simp [rulesAt, List.filter_filter]

theorem rulesAt_eq_nil {faults : List (ByteRange × Rule)} (h : ∀ p ∈ faults, p.2.isOnValues = true → p.1 ≠ range) :
    rulesAt range faults = [] := by
  rw [rulesAt, List.map_eq_nil_iff, List.filter_eq_nil_iff]
  intro p hp hat
  have hat := of_decide_eq_true hat
  exact h p hp hat.2 hat.1

/-! ## One field after the other -/

/-- What the rules on values say of a field by itself, and its tag. -/
theorem ofField_eq (f : Field) : (ofField f).2 = readTag? f ∧ (ofField f).1.filter (·.2.isOnValues) =
    ((readTag? f).filter fun t => t.HasBadNumber).toList.map fun t => (t.range, .numericSequence (t.text "pb")) := by
  unfold ofField readTag?
  split
  · exact ⟨rfl, rfl⟩
  · cases f.tag with
    | none => exact ⟨rfl, rfl⟩
    | some token =>
      cases hraw : Token.unquote token.text with
      | none => simp [hraw]
      | some raw =>
        cases htag : StructTag.ofString raw with
        | error e => simp [hraw, htag, Except.toOption, Rule.isOnValues]
        | ok tag =>
          simp only [Option.bind_some, hraw, Option.map_some, htag, Except.toOption]
          cases hvalue : (ReadTag.mk token.range tag).value? "pb" with
          | none => simp [Option.filter, ReadTag.HasBadNumber, hvalue]
          | some value =>
            cases hn : Text.int64? value <;>
              simp [Option.filter, ReadTag.HasBadNumber, ReadTag.sequence?, ReadTag.text, hvalue, hn,
                Rule.isOnValues]

def faultsAfter : (earlier : List ReadTag) → List ReadTag → List (ByteRange × Rule)
  | _, [] => []
  | earlier, t :: tags => (t.rulesAfter earlier).map (t.range, ·) ++ faultsAfter (t :: earlier) tags

theorem mem_names {earlier : List ReadTag} {value : String} (h : t.value? "json" = some value) :
    (earlier.filterMap (·.value? "json")).contains value = true ↔ t.RepeatsName earlier := by
  simp [ReadTag.RepeatsName, h]

/-- Fields count by their tags only, and the names before them are those of the tags before. -/
theorem filter_ofFields : ∀ (fields : List Field) (earlier : List ReadTag),
    (ofFields (earlier.filterMap (·.value? "json")) fields).filter (·.2.isOnValues) =
      faultsAfter earlier (readTags fields)
  | [], _ => rfl
  | f :: fields, earlier => by
    obtain ⟨hsnd, hown⟩ := ofField_eq f
    rw [ofFields]
    generalize ofField f = judged at hsnd hown ⊢
    obtain ⟨faults, tag⟩ := judged
    obtain rfl : tag = readTag? f := hsnd
    dsimp only at hown ⊢
    cases htag : readTag? f with
    | none =>
      rw [htag] at hown
      rw [readTags, List.filterMap_cons_none htag, ← readTags, ← filter_ofFields fields earlier]
      simp [hown]
    | some t =>
      rw [htag] at hown
      rw [readTags, List.filterMap_cons_some htag, ← readTags, faultsAfter, ← filter_ofFields fields (t :: earlier)]
      have hnumber : faults.filter (·.2.isOnValues) =
          (if t.HasBadNumber then [Rule.numericSequence (t.text "pb")] else []).map (t.range, ·) := by
        rw [hown]
        by_cases hbad : t.HasBadNumber <;> simp [Option.filter, hbad]
      cases hvalue : t.value? "json" with
      | none =>
        have hnot : ¬ t.RepeatsName earlier := by simp [ReadTag.RepeatsName, hvalue]
        simp [hvalue, hnumber, ReadTag.rulesAfter, hnot]
      | some value =>
        have hname : ((if (earlier.filterMap (·.value? "json")).contains
          value then [(t.range, Rule.uniqueJson value)] else []).filter
            fun p => p.2.isOnValues) =
              (if t.RepeatsName earlier then [Rule.uniqueJson (t.text "json")] else []).map (t.range, ·) := by
          by_cases hrepeats : t.RepeatsName earlier
          · rw [if_pos ((mem_names hvalue).mpr hrepeats), if_pos hrepeats, ReadTag.text, hvalue]
            rfl
          · rw [if_neg fun hin => hrepeats ((mem_names hvalue).mp hin), if_neg hrepeats]
            rfl
        have hnames : (t :: earlier).filterMap (·.value? "json") = value :: earlier.filterMap (·.value? "json") :=
          List.filterMap_cons_some hvalue
        simp only [Option.bind_some, hvalue, Option.map_some, List.filter_append, hnumber, hname, ReadTag.rulesAfter,
          List.map_append, hnames]

theorem mem_faultsAfter : ∀ {tags earlier : List ReadTag} {p : ByteRange × Rule},
    p ∈ faultsAfter earlier tags → ∃ t ∈ tags, p.1 = t.range
  | t :: tags, earlier, p, h => by
    rcases List.mem_append.mp h with h | h
    · obtain ⟨rule, -, rfl⟩ := List.mem_map.mp h
      exact ⟨t, List.mem_cons_self, rfl⟩
    · obtain ⟨u, hu, hp⟩ := mem_faultsAfter h
      exact ⟨u, List.mem_cons_of_mem _ hu, hp⟩

theorem rulesAt_elsewhere {tags earlier : List ReadTag} (h : ∀ u ∈ tags, u.range ≠ range) :
    rulesAt range (faultsAfter earlier tags) = [] := by
  refine rulesAt_eq_nil fun p hp _ => ?_
  obtain ⟨u, hu, hrange⟩ := mem_faultsAfter hp
  exact hrange ▸ h u hu

theorem faultsAfter_append : ∀ (before rest earlier : List ReadTag),
    faultsAfter earlier (before ++ rest) = faultsAfter earlier before ++ faultsAfter (before.reverse ++ earlier) rest
  | [], _, _ => rfl
  | t :: before, rest, earlier => by
    rw [List.cons_append, faultsAfter, faultsAfter, faultsAfter_append before, List.append_assoc, List.reverse_cons,
      List.append_assoc, List.singleton_append]

/-! ## Groups of one number -/

def numbered (n : Int) (tags : List ReadTag) : List ReadTag := tags.filter (·.sequence? = some n)

def addTo (groups : Table Int (List ReadTag)) (t : ReadTag) : Table Int (List ReadTag) :=
  match t.sequence? with
  | none => groups
  | some n => groups.insert n ((groups.find? n).getD [] ++ [t])

def groups (tags : List ReadTag) : Table Int (List ReadTag) := tags.foldl addTo []

theorem bySequence_eq (fields : List Field) : bySequence fields = groups (readTags fields) := by
  rw [bySequence, readTags, ← funext fun f => (ofField_eq f).1]
  rfl

theorem groups_append (tags : List ReadTag) (t : ReadTag) : groups (tags ++ [t]) = addTo (groups tags) t :=
  List.foldl_concat addTo [] t tags

theorem numbered_append (n : Int) (tags : List ReadTag) (t : ReadTag) :
    numbered n (tags ++ [t]) = if t.sequence? = some n then numbered n tags ++ [t] else numbered n tags := by
  rw [numbered, List.filter_append, List.filter_singleton]
  by_cases h : t.sequence? = some n <;> simp [numbered, h]

theorem nodup_keys_groups (tags : List ReadTag) : (groups tags).keys.Nodup := by
  induction tags using List.reverseRecOn with
  | nil => exact List.nodup_nil
  | append_singleton tags t ih =>
    rw [groups_append, addTo]
    split
    · exact ih
    · exact Table.nodup_keys_insert ih _ _

/-- The group of a number holds all tags with it. -/
theorem find?_groups (tags : List ReadTag) (n : Int) :
    (groups tags).find? n = if numbered n tags = [] then none else some (numbered n tags) := by
  induction tags using List.reverseRecOn generalizing n with
  | nil => rfl
  | append_singleton tags t ih =>
    rw [groups_append, addTo, numbered_append]
    cases hn : t.sequence? with
    | none => simpa using ih n
    | some m =>
      dsimp only
      rw [Table.find?_insert]
      by_cases h : n = m
      · subst h
        simp only [ih, beq_self_eq_true, if_true]
        split <;> simp_all
      · have hne : ¬ some m = some n := fun heq => h (Option.some.inj heq).symm
        rw [if_neg hne, beq_false_of_ne h, if_neg Bool.false_ne_true]
        exact ih n

/-! ## One struct -/

def groupFaults (tags : List ReadTag) : List (ByteRange × Rule) :=
  if tags.length < 2 then [] else tags.map fun t => (t.range, .uniqueSequence (t.text "pb"))

theorem sharedSequences_eq (fields : List Field) :
    sharedSequences fields = (groups (readTags fields)).flatMap fun e => groupFaults e.2 := by
  rw [sharedSequences, bySequence_eq]
  rfl

theorem snd_of_mem_groups {e : Int × List ReadTag} (h : e ∈ groups tags) : e.2 = numbered e.1 tags := by
  have hfind := Table.find?_of_mem (nodup_keys_groups tags) h
  rw [find?_groups] at hfind
  split at hfind
  · cases hfind
  · exact (Option.some.inj hfind).symm

theorem mem_groupFaults {p : ByteRange × Rule} (h : p ∈ groupFaults tags) : ∃ t ∈ tags, p.1 = t.range := by
  unfold groupFaults at h
  split at h
  · exact absurd h List.not_mem_nil
  · obtain ⟨t, ht, rfl⟩ := List.mem_map.mp h
    exact ⟨t, ht, rfl⟩

/-- The rules on values say something of tags that can be read only. -/
theorem exists_readTag {p : ByteRange × Rule} (h : p ∈ ofFields [] fields ++ sharedSequences fields)
    (hvalues : p.2.isOnValues = true) : ∃ t ∈ readTags fields, p.1 = t.range := by
  rcases List.mem_append.mp h with h | h
  · have hfilter : p ∈ (ofFields [] fields).filter (·.2.isOnValues) := List.mem_filter.mpr ⟨h, hvalues⟩
    rw [← List.filterMap_nil, filter_ofFields] at hfilter
    exact mem_faultsAfter hfilter
  · rw [sharedSequences_eq] at h
    obtain ⟨e, he, hp⟩ := List.mem_flatMap.mp h
    obtain ⟨t, ht, hrange⟩ := mem_groupFaults hp
    rw [snd_of_mem_groups he] at ht
    exact ⟨t, (List.mem_filter.mp ht).1, hrange⟩

theorem isOnValues_of_mem_rulesAfter {earlier : List ReadTag} {rule : Rule} (h : rule ∈ t.rulesAfter earlier) :
    rule.isOnValues = true := by
  rcases List.mem_append.mp h with h | h
  all_goals
    split at h
    · rw [List.mem_singleton.mp h]
      rfl
    · cases h

theorem rulesAt_own (rules : List Rule) (h : ∀ rule ∈ rules, rule.isOnValues = true) :
    rulesAt range (rules.map (range, ·)) = rules := by
  rw [rulesAt, List.filter_eq_self.mpr, List.map_map]
  · exact List.map_id _
  · intro p hp
    obtain ⟨rule, hrule, rfl⟩ := List.mem_map.mp hp
    exact decide_eq_true ⟨rfl, h rule hrule⟩

section
variable (hapart : ∀ u ∈ before ++ after, u.range ≠ t.range)
include hapart

theorem rulesAt_faultsAfter : rulesAt t.range (faultsAfter [] (before ++ t :: after)) = t.rulesAfter before := by
  rw [faultsAfter_append, faultsAfter, rulesAt_append, rulesAt_append,
    rulesAt_elsewhere fun u hu => hapart u (List.mem_append_left _ hu),
    rulesAt_elsewhere fun u hu => hapart u (List.mem_append_right _ hu), List.nil_append, List.append_nil,
    rulesAt_own _ fun _ => isOnValues_of_mem_rulesAfter]
  exact ReadTag.rulesAfter_congr (by simp) t

/-- A group says something of a tag if it is that of its number and has another tag. -/
theorem rulesAt_groupFaults (n : Int) : rulesAt t.range (groupFaults (numbered n (before ++ t :: after))) =
    if t.sequence? = some n ∧ t.SharesNumber (before ++ after) then [.uniqueSequence (t.text "pb")] else [] := by
  by_cases hn : t.sequence? = some n
  · have hsplit : numbered n (before ++ t :: after) = numbered n before ++ t :: numbered n after := by
      simp [numbered, hn]
    have hshares : t.SharesNumber (before ++ after) ↔ numbered n before ++ numbered n after ≠ [] := by
      rw [numbered, numbered, ← List.filter_append, ne_eq, List.filter_eq_nil_iff]
      simp [ReadTag.SharesNumber, hn]
    have hother (us : List ReadTag) (hus : ∀ u ∈ us, u ∈ before ++ after) :
        rulesAt t.range ((numbered n us).map fun u => (u.range, Rule.uniqueSequence (u.text "pb"))) = [] :=
      rulesAt_eq_nil fun p hp _ => by
        obtain ⟨u, hu, rfl⟩ := List.mem_map.mp hp
        exact hapart u (hus u (List.mem_filter.mp hu).1)
    rw [hsplit, groupFaults]
    by_cases hs : t.SharesNumber (before ++ after)
    · have hlength : ¬ (numbered n before ++ t :: numbered n after).length < 2 := by
        have := List.length_pos_of_ne_nil (hshares.mp hs)
        simp only [List.length_append, List.length_cons] at this ⊢
        omega
      rw [if_neg hlength, if_pos ⟨hn, hs⟩, List.map_append, List.map_cons, ← List.singleton_append, rulesAt_append,
        rulesAt_append, hother before fun u hu => List.mem_append_left _ hu,
        hother after fun u hu => List.mem_append_right _ hu, List.nil_append, List.append_nil]
      exact rulesAt_own [.uniqueSequence (t.text "pb")] (by simp [Rule.isOnValues])
    · have hnil := not_not.mp (mt hshares.mpr hs)
      rw [List.append_eq_nil_iff] at hnil
      have hnot : ¬ (t.sequence? = some n ∧ t.SharesNumber (before ++ after)) := fun h => hs h.2
      rw [hnil.1, hnil.2, if_neg hnot]
      rfl
  · rw [if_neg fun h => hn h.1]
    refine rulesAt_eq_nil fun p hp _ => ?_
    obtain ⟨u, hu, hrange⟩ := mem_groupFaults hp
    obtain ⟨hu, hnumber⟩ := List.mem_filter.mp hu
    have hne : u ≠ t := fun heq => hn (heq ▸ of_decide_eq_true hnumber)
    have hmem : u ∈ before ++ after := by
      simpa [hne] using hu
    exact hrange ▸ hapart u hmem

theorem rulesAt_sharedSequences (htags : readTags fields = before ++ t :: after) :
    rulesAt t.range (sharedSequences fields) =
    if t.SharesNumber (before ++ after) then [.uniqueSequence (t.text "pb")] else [] := by
  have hgroup (e) (he : e ∈ groups (readTags fields)) : rulesAt t.range (groupFaults e.2) =
      if t.sequence? = some e.1 ∧ t.SharesNumber (before ++ after) then [.uniqueSequence (t.text "pb")] else [] := by
    rw [snd_of_mem_groups he, htags, rulesAt_groupFaults hapart]
  rw [sharedSequences_eq, rulesAt_flatMap, List.flatMap_congr hgroup]
  by_cases hs : t.SharesNumber (before ++ after)
  · obtain ⟨n, hn⟩ := Option.isSome_iff_exists.mp hs.1
    have hmem : (n, numbered n (readTags fields)) ∈ groups (readTags fields) := by
      refine Table.mem_of_find? ?_
      rw [find?_groups, if_neg]
      exact List.ne_nil_of_mem (List.mem_filter.mpr ⟨by simp [htags], decide_eq_true hn⟩)
    obtain ⟨pre, post, hsplit⟩ := List.append_of_mem hmem
    rw [flatMap_of_split hsplit fun e he => if_neg fun h => ?_, if_pos ⟨hn, hs⟩, if_pos hs]
    exact ne_of_split hsplit (nodup_keys_groups _) he (Option.some.inj (h.1.symm.trans hn))
  · rw [if_neg hs]
    exact List.flatMap_eq_nil_iff.mpr fun e _ => if_neg fun h => hs h.2

/-- What is reported of a struct at the place of a tag are the rules that this tag breaks. -/
theorem rulesAt_struct (htags : readTags fields = before ++ t :: after) :
    rulesAt t.range (ofFields [] fields ++ sharedSequences fields) = t.brokenRules before after := by
  rw [rulesAt_append, rulesAt_sharedSequences hapart htags, ← rulesAt_filter (ofFields [] fields),
    ← List.filterMap_nil,
    filter_ofFields, htags, rulesAt_faultsAfter hapart]
  rfl

end

/-! ## All structs -/

/-- The rules on values that are reported at a place in a file. -/
def reportedAt (file : Nat) (range : ByteRange) (reports : List Violation) : List Rule :=
  (reports.filter fun v => v.file = file ∧ v.range = range ∧ v.rule.isOnValues).map rule

variable {file : Nat}

theorem reportedAt_flatMap {α : Type} (as : List α) (f : α → List Violation) :
    reportedAt file range (as.flatMap f) = as.flatMap fun a => reportedAt file range (f a) := by
  simp [reportedAt, List.filter_flatMap, List.map_flatMap]

theorem reportedAt_ofStruct (file : Nat) (range : ByteRange) (struct : TypeExpr) :
    reportedAt file range (ofStruct file struct) =
      rulesAt range (ofFields [] struct.fields ++ sharedSequences struct.fields) := by
  simp [reportedAt, rulesAt, ofStruct, List.filter_map, Function.comp_def]

theorem readTag?_range {f : Field} (h : readTag? f = some t) : ∃ token, f.tag = some token ∧
    t.range = token.range := by
  unfold readTag? at h
  split at h
  · cases h
  · obtain ⟨token, htoken, h⟩ := Option.bind_eq_some_iff.mp h
    obtain ⟨raw, -, h⟩ := Option.bind_eq_some_iff.mp h
    obtain ⟨tag, -, rfl⟩ := Option.map_eq_some_iff.mp h
    exact ⟨token, htoken, rfl⟩

def places (struct : TypeExpr) : List ByteRange := (readTags struct.fields).map ReadTag.range

theorem sublist_places : ∀ fields : List Field,
    ((readTags fields).map ReadTag.range).Sublist ((fields.filterMap Field.tag).map Token.range)
  | [] => List.Sublist.refl _
  | f :: fields => by
    have ih := sublist_places fields
    cases htag : readTag? f with
    | none =>
      rw [readTags, List.filterMap_cons_none htag]
      refine ih.trans (List.Sublist.map _ (List.Sublist.filterMap _ (List.sublist_cons_self f fields)))
    | some t =>
      obtain ⟨token, htoken, hrange⟩ := readTag?_range htag
      rw [readTags, List.filterMap_cons_some htag, List.filterMap_cons_some htoken, List.map_cons, List.map_cons,
        hrange]
      exact ih.cons_cons _

theorem nodup_places (text : String) : ((parse text).tree.structTypes.flatMap places).Nodup := by
  have htags := Grammar.nodup_fieldTags text
  rw [Tree.fieldTags, List.map_flatMap] at htags
  exact htags.sublist (List.Sublist.flatMap_right _ fun struct _ => sublist_places struct.fields)

/-- The structs of a text have their tags apart from each other. -/
theorem apart_of_split {as before after : List TypeExpr} {struct : TypeExpr} (hnodup : (as.flatMap places).Nodup)
    (h : as = before ++ struct :: after) :
    (places struct).Nodup ∧ ∀ other ∈ before ++ after, ∀ place ∈ places other, place ∉ places struct := by
  have hperm : as.Perm (struct :: (before ++ after)) := h ▸ List.perm_middle
  have hnodup := (hperm.flatMap_right places).nodup_iff.mp hnodup
  rw [List.flatMap_cons, List.nodup_append] at hnodup
  exact ⟨hnodup.1, fun other hother place hplace hin =>
    hnodup.2.2 place hin place (List.mem_flatMap.mpr ⟨other, hother, hplace⟩) rfl⟩

theorem reportedAt_structs {text : String} {struct : TypeExpr} (hstruct : struct ∈ (parse text).tree.structTypes)
    (htags : readTags struct.fields = before ++ t :: after) :
    reportedAt file t.range ((parse text).tree.structTypes.flatMap (ofStruct file)) =
      t.brokenRules before after := by
  obtain ⟨pre, post, hsplit⟩ := List.append_of_mem hstruct
  obtain ⟨hnodup, hothers⟩ := apart_of_split (nodup_places text) hsplit
  have hplace : t.range ∈ places struct := List.mem_map_of_mem (htags ▸ by simp)
  rw [reportedAt_flatMap, flatMap_of_split hsplit, reportedAt_ofStruct]
  · exact rulesAt_struct (fun u => ne_of_split htags hnodup) htags
  · intro other hother
    rw [reportedAt_ofStruct]
    refine rulesAt_eq_nil fun p hp hvalues heq => ?_
    obtain ⟨u, hu, hrange⟩ := exists_readTag hp hvalues
    exact hothers other hother _ (List.mem_map.mpr ⟨u, hu, hrange.symm.trans heq⟩) hplace

theorem reportedAt_ofStructs {trees : List Tree} {tree : Tree} (htree : trees[file]? = some tree) :
    reportedAt file range (ofStructs trees) = reportedAt file range (tree.structTypes.flatMap (ofStruct file)) := by
  obtain ⟨pre, post, hsplit⟩ := List.append_of_mem (List.mk_mem_zipIdx_iff_getElem?.mpr htree)
  have hnodup : (trees.zipIdx.map Prod.snd).Nodup := by
    rw [List.zipIdx_map_snd]
    exact List.nodup_range'
  rw [ofStructs, reportedAt_flatMap]
  refine flatMap_of_split hsplit fun other hother => ?_
  have hfile : other.2 ≠ file := ne_of_split hsplit hnodup hother
  rw [reportedAt, List.map_eq_nil_iff, List.filter_eq_nil_iff]
  intro v hv hat
  obtain ⟨struct, -, hv⟩ := List.mem_flatMap.mp hv
  obtain ⟨p, -, rfl⟩ := List.mem_map.mp hv
  exact hfile (of_decide_eq_true hat).1

theorem exists_of_mem_ofStructs {trees : List Tree} {v : Violation} (h : v ∈ ofStructs trees)
    (hvalues : v.rule.isOnValues = true) : ∃ tree, trees[v.file]? = some tree ∧
      ∃ struct ∈ tree.structTypes, ∃ t ∈ readTags struct.fields, v.range = t.range := by
  obtain ⟨⟨tree, file⟩, htree, h⟩ := List.mem_flatMap.mp h
  obtain ⟨struct, hstruct, h⟩ := List.mem_flatMap.mp h
  obtain ⟨p, hp, rfl⟩ := List.mem_map.mp h
  obtain ⟨t, ht, hrange⟩ := exists_readTag hp hvalues
  exact ⟨tree, List.mk_mem_zipIdx_iff_getElem?.mp htree, struct, hstruct, t, ht, hrange⟩

end

/-- For every tag of a struct that can be read, the reports on its values are exactly the rules that it breaks among
the tags of that struct, each of them once, and no other place has such a report. -/
theorem values_reported (texts : List String) :
    (∀ {file : Nat} {text : String} {struct : TypeExpr} {before : List ReadTag} {t : ReadTag} {after : List ReadTag},
      texts[file]? = some text → struct ∈ (parse text).tree.structTypes → readTags struct.fields = before ++ t ::
        after →
      reportedAt file t.range (ofStructs (texts.map fun text => (parse text).tree)) = t.brokenRules before after) ∧
    ∀ v ∈ ofStructs (texts.map fun text => (parse text).tree), v.rule.isOnValues = true →
      ∃ text, texts[v.file]? = some text ∧
        ∃ struct ∈ (parse text).tree.structTypes, ∃ t ∈ readTags struct.fields, v.range = t.range := by
  refine ⟨fun htext hstruct htags => ?_, fun v hv hvalues => ?_⟩
  · rw [reportedAt_ofStructs (by rw [List.getElem?_map, htext]; rfl), reportedAt_structs hstruct htags]
  · obtain ⟨tree, htree, hreport⟩ := exists_of_mem_ofStructs hv hvalues
    rw [List.getElem?_map] at htree
    obtain ⟨text, htext, rfl⟩ := Option.map_eq_some_iff.mp htree
    exact ⟨text, htext, hreport⟩

/-- A number and a name of an earlier field, behind a struct that has that number inside. -/
theorem values_reported_sample : ∃ (text : String) (before : List ReadTag) (t : ReadTag),
    t.brokenRules before [] = [.uniqueJson "x", .uniqueSequence "02"] ∧
    reportedAt 0 t.range (ofStructs ([text].map fun text => (parse text).tree)) = t.brokenRules before [] ∧
    ∃ struct ∈ (parse text).tree.structTypes, ∃ u ∈ readTags struct.fields, t.range = u.range := by
  obtain ⟨text, htext⟩ : ∃ text, text =
      "type T struct\x7b\na struct\x7bb int `pb:\"2\"`\x7d `pb:\"2\" json:\"x\"`\n" ++
        "c int `json:\"x\" pb:\"02\"`\n\x7d" := ⟨_, rfl⟩
  have htags : ((parse text).tree.structTypes.map fun struct => readTags struct.fields) =
      [[⟨⟨40, 57⟩, ⟨[("pb", "2"), ("json", "x")]⟩⟩, ⟨⟨64, 82⟩, ⟨[("json", "x"), ("pb", "02")]⟩⟩],
        [⟨⟨30, 38⟩, ⟨[("pb", "2")]⟩⟩]] := by
    subst htext
    decide +kernel
  have hreport : ⟨0, ⟨64, 82⟩, .uniqueSequence "02"⟩ ∈ ofStructs ([text].map fun text => (parse text).tree) := by
    subst htext
    decide +kernel
  obtain ⟨struct, rest, hstructs, htags, -⟩ := List.map_eq_cons_iff.mp htags
  refine ⟨text, [⟨⟨40, 57⟩, ⟨[("pb", "2"), ("json", "x")]⟩⟩], ⟨⟨64, 82⟩, ⟨[("json", "x"), ("pb", "02")]⟩⟩, by
    decide +kernel,
    (values_reported [text]).1 rfl (hstructs ▸ List.mem_cons_self) htags, ?_⟩
  obtain ⟨_, htext, hplace⟩ := (values_reported [text]).2 _ hreport rfl
  exact Option.some.inj htext ▸ hplace

end Violation

end IdlWorkbench
