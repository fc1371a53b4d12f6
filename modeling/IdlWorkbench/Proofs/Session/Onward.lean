import IdlWorkbench.Proofs.Session.Amid

/-!
# What an edit leads to

The turns come one after the other, and each is right if nothing that its package leads to has yet to hear of news.
Where that is so for all of them, publishing leaves nothing outdated, and shows what checking from scratch gives. -/

namespace IdlWorkbench.Graph

open IdlWorkbench.Path Relation

variable {disk : Disk} {m : ModuleRoot} {lint : Bool} {g w t : Graph}

/-! ## The order of turns -/

/-- A turn finds the graph that the turns before it leave. -/
theorem graph_of_turn {before after : List (String × Graph)} {turn : String × Graph}
    (h : w.turns disk lint = before ++ turn :: after) :
    turn.2 = (before.map Prod.fst).foldl (afterTurn disk lint) w := by
  have hall : w.turns disk lint = turnsOf disk lint ((w.turns disk lint).map Prod.fst) w :=
    turnsWithin_eq disk lint _ [] w
  rw [h, List.map_append, List.map_cons, turnsOf_append] at hall
  have hlength : before.length = (turnsOf disk lint (before.map Prod.fst) w).length := by
    simpa using congrArg List.length (map_turnsOf disk lint (before.map Prod.fst) w).symm
  have hrest := (List.append_inj hall hlength).2
  rw [turnsOf] at hrest
  exact congrArg Prod.snd (List.cons.inj hrest).1

theorem tracked_of_turnsWithin : ∀ {fuel : Nat} {seen : List String} {w : Graph},
    ∀ turn ∈ turnsWithin disk lint fuel seen w, turn.1 ∈ w.tracked
  | 0, _, _, _, h => nomatch h
  | fuel + 1, seen, w, turn, h => by
    rw [turnsWithin] at h
    split at h
    · cases h
    · rename_i paths _
      rcases List.mem_append.mp h with h | h
      · have hmem := List.mem_map_of_mem (f := Prod.fst) h
        rw [map_turnsOf] at hmem
        exact (List.mem_filter.mp (List.mem_filter.mp hmem).1).1
      · have hmem := tracked_of_turnsWithin turn h
        rwa [(keeps_afterTurns disk lint _ w).tracked] at hmem

section
variable (hd : disk.WellNamed) (hm : m.dir.Rooted) (hnamed : m.Named)
include hd hm hnamed

/-- A package waits for its turn while others have theirs. -/
theorem Steady.waits_afterTurns {path : String} : ∀ {paths : List String} {t : Graph},
    Steady disk m t → (∀ p ∈ paths, t.packages.contains p = true) → path ∉ paths → t.Waits path →
      (paths.foldl (afterTurn disk lint) t).Waits path
  | [], _, _, _, _, hw => hw
  | p :: paths, t, h, hpaths, hnot, hw => by
    obtain ⟨hne, hnot⟩ := not_or.mp (mt List.mem_cons.mpr hnot)
    have hnext : Steady disk m (t.afterTurn disk lint p) :=
      h.ends_publishPackage hd hm hnamed lint (hpaths p (by simp))
    have hkeeps : Keeps t (t.afterTurn disk lint p) := keeps_publishPackage lint p
    exact hnext.waits_afterTurns (fun q hq => hkeeps.packages q (hpaths q (List.mem_cons_of_mem _ hq))) hnot
      ((Steady.turning hd hm hnamed lint).waits h hne hw)

/-- What waits for its turn and is tracked has it. -/
theorem Steady.turn_of_waits (h : Steady disk m w) {before after : List (String × Graph)}
    (heq : w.turns disk lint = before ++ after)
    (ht : Steady disk m ((before.map Prod.fst).foldl (afterTurn disk lint) w))
    {path : String} (htracked : path ∈ w.tracked) (hbefore : path ∉ before.map Prod.fst)
    (hw : ((before.map Prod.fst).foldl (afterTurn disk lint) w).Waits path) : path ∈ after.map Prod.fst := by
  by_contra hafter
  have hpaths : ∀ p ∈ after.map Prod.fst,
      ((before.map Prod.fst).foldl (afterTurn disk lint) w).packages.contains p = true := by
    intro p hp
    obtain ⟨turn, hturn, rfl⟩ := List.mem_map.mp hp
    have hmem : turn ∈ w.turns disk lint := heq ▸ List.mem_append_right _ hturn
    exact (keeps_afterTurns disk lint _ w).packages _
      (h.resting.inv.refs.tracked _ (tracked_of_turnsWithin turn hmem))
  have hlast : ((after.map Prod.fst).foldl (afterTurn disk lint) _).Waits path :=
    ht.waits_afterTurns hd hm hnamed hpaths hafter hw
  rw [← List.foldl_append, ← List.map_append, ← heq] at hlast
  have hbound : (w.unseen []).length < w.tracked.length + 1 := Nat.lt_succ_of_le (List.length_filter_le _ _)
  have hdirty : path ∈ ((publishWithin disk lint (w.tracked.length + 1) []).run w).2.dirty := by
    rw [snd_publishWithin]
    obtain ⟨n, hn, hs⟩ := hlast
    have htracked' := htracked
    rw [← (keeps_afterTurns disk lint ((w.turns disk lint).map Prod.fst) w).tracked] at htracked'
    rw [turns] at hn htracked'
    exact List.mem_filter.mpr ⟨htracked', by simp [hn, hs]⟩
  have hmem : path ∈ (w.turns disk lint).map Prod.fst :=
    (seen_publishWithin hbound path hdirty).resolve_left (by simp)
  rw [heq, List.map_append] at hmem
  exact (List.mem_append.mp hmem).elim hbefore hafter

end

/-! ## Turns in good time -/

/-- When a package has its turn, no package that it leads to still waits for a later one that shows something else.
-/
def Timely (disk : Disk) (lint : Bool) (g w : Graph) : Prop :=
  ∀ before path t after, w.turns disk lint = before ++ (path, t) :: after → ∀ x, t.packages.find? path = some x →
    ∀ key n, t.packages.find? key = some n → w.packages.find? key = some n → TransGen (w.Uses disk) x.bare n.bare →
      ∀ turn ∈ after, turn.1 ∈ n.imports → SameAnswer disk g w turn.1

section
variable {dir : Path} {edited : String} (hd : disk.WellNamed) (hm : m.dir.Rooted) (hnamed : m.Named)
  (h : Carried disk m dir edited g w)
include hd hm hnamed h

/-- What is outdated after some turns has news from a package with a turn to come. -/
theorem Carried.news_to_come {before after : List (String × Graph)} (heq : w.turns disk lint = before ++ after)
    (ht : Amid disk m g w (before.map Prod.fst) ((before.map Prod.fst).foldl (afterTurn disk lint) w)) {key : String}
    {n : PackageNode} (hn : ((before.map Prod.fst).foldl (afterTurn disk lint) w).packages.find? key = some n)
    (hwrong : ¬w.Sound disk n) : ∃ key' n' path,
      ((before.map Prod.fst).foldl (afterTurn disk lint) w).packages.find? key' = some n' ∧
        ReflTransGen (w.Uses disk) n.bare n'.bare ∧ Left disk g w (before.map Prod.fst) key' n' ∧
        News disk g w n' path ∧
          path ∈ after.map Prod.fst := by
  obtain ⟨key', n', path, hn', hlead, hleft, hnews, hwaits⟩ := ht.exists_waiting hd hm hnamed h hn hwrong
  obtain ⟨-, -, -, htracked⟩ := hleft.wanted h hnews
  refine ⟨key', n', path, hn', hlead, hleft, hnews, ?_⟩
  exact h.after.turn_of_waits hd hm hnamed heq ht.toSteady htracked (fun hmem => hleft.still path hmem hnews) hwaits

/-- Nothing that a package leads to is outdated when it has its turn. -/
theorem Carried.clear (htimely : Timely disk lint g w) {before after : List (String × Graph)} {path : String}
    (heq : w.turns disk lint = before ++ (path, t) :: after) (ht : Amid disk m g w (before.map Prod.fst) t) :
    ∃ x, Clear disk w t path x := by
  have hmem : (path, t) ∈ w.turns disk lint := heq ▸ List.mem_append_right _ (List.mem_cons_self ..)
  obtain ⟨-, ⟨x, hx, hs⟩, -⟩ := h.after.forall_turns hd hm hnamed lint (path, t) hmem
  refine ⟨x, hx, hs, fun key n hn hlead => ?_⟩
  by_contra hwrong
  obtain rfl : t = (before.map Prod.fst).foldl (afterTurn disk lint) w := graph_of_turn heq
  obtain ⟨key', n', path', hn', hlead', hleft, hnews, hcome⟩ := h.news_to_come hd hm hnamed heq ht hn hwrong
  have hlead'' : TransGen (w.Uses disk) x.bare n'.bare := hlead.trans_left hlead'
  rcases List.mem_cons.mp hcome with hself | hlater
  · -- what has had the news would lead to itself
    obtain rfl : path' = path := hself
    obtain ⟨z, -, hz', rfl, -⟩ := hnews.single
    have hdot := (h.after.neat_importPaths hleft.old _ hnews.mem).dotFree
    obtain rfl : x.bare = z := ht.traced.toFollows.bare_of_fresh hd hm hdot hz' hx
    have huses : w.Uses disk n'.bare x.bare := ⟨_, hnews.mem, hnews.standard, hz'⟩
    exact h.untangled key' n' hleft.old (Or.inl hleft.known) n'.bare .refl (TransGen.head huses hlead'')
  · obtain ⟨turn, hturn, rfl⟩ := List.mem_map.mp hlater
    exact hnews.changed (htimely before path _ after heq x hx key' n' hn' hleft.old hlead'' turn hturn
      hnews.recorded)

/-- The turns, one after the other. -/
theorem Carried.amid (htimely : Timely disk lint g w) {before : List (String × Graph)} :
    ∀ {after : List (String × Graph)}, w.turns disk lint = before ++ after →
      Amid disk m g w (before.map Prod.fst) ((before.map Prod.fst).foldl (afterTurn disk lint) w) := by
  induction before using List.reverseRecOn with
  | nil => exact fun _ => h.start hd hm hnamed
  | append_singleton before turn ih =>
    intro after heq
    rw [List.append_assoc] at heq
    have ht := ih heq
    obtain ⟨path, t⟩ := turn
    obtain rfl : t = (before.map Prod.fst).foldl (afterTurn disk lint) w := graph_of_turn heq
    obtain ⟨x, hclear⟩ := h.clear hd hm hnamed htimely heq ht
    have hnodup := h.after.nodup_turns hd hm hnamed lint
    rw [heq, List.map_append, List.nodup_append] at hnodup
    have hpath : path ∉ before.map Prod.fst := fun hmem => hnodup.2.2 path hmem path (by simp) rfl
    have hturn : Ends (publishPackage disk lint path) ((before.map Prod.fst).foldl (afterTurn disk lint) w) _ :=
      ht.ends_turn hd hm hnamed h hpath hclear
    rw [List.map_append, List.foldl_append]
    exact (ends_iff.mp hturn).1

end

/-! ## In the end -/

/-- A file of a package that someone has asked for, which waits for its turn, or is as it was and has what it
should. -/
def Due (disk : Disk) (lint : Bool) (ps : Published) (g w : Graph) (file : Path) : Prop :=
  ∃ key n, w.packages.find? key = some n ∧ file ∈ n.files ∧ key ∈ w.tracked ∧ n.state ≠ .untracked ∧
    (n.state = .dirty ∨ g.packages.find? key = some n ∧ Shows disk lint ps g file n)

/-- A file of a package that someone has asked for, which shows what it should. -/
def Told (disk : Disk) (lint : Bool) (ps : Published) (g : Graph) (file : Path) : Prop :=
  ∃ key n, g.packages.find? key = some n ∧ file ∈ n.files ∧ key ∈ g.tracked ∧ n.state ≠ .untracked ∧
    Shows disk lint ps g file n

/-- What is right for a package before and after an edit shows the same. -/
theorem Shows.of_settled {ps : Published} {file : Path} {n : PackageNode} (h : Shows disk lint ps g file n)
    {a : Analysis}
    (ha : n.analysis = some a) (hs : g.Settles disk n a) (hs' : w.Settles disk n a) :
    Shows disk lint ps w file n := by
  obtain ⟨depth, h⟩ := h
  obtain ⟨d, hd⟩ : ∃ d, ∀ fuel, d ≤ fuel → FileDiagnostics.ofTurn lint n = g.scratch disk lint fuel n :=
    hs.scratch rfl ha
  obtain ⟨d', hd'⟩ : ∃ d, ∀ fuel, d ≤ fuel → FileDiagnostics.ofTurn lint n = w.scratch disk lint fuel n :=
    hs'.scratch rfl ha
  refine ⟨max depth (max d d'), fun fuel hfuel => ?_⟩
  rw [h fuel (by omega), ← hd fuel (by omega), ← hd' fuel (by omega)]

section
variable (hd : disk.WellNamed) (hm : m.dir.Rooted) (hnamed : m.Named)
include hd hm hnamed

/-- What is right as seen from a graph with the same view is right. -/
theorem Traced.exact (ht : Traced disk m w t) (hw : Steady disk m w) (hsteady : Steady disk m t)
    (hsound : ∀ key n, t.packages.find? key = some n → w.Sound disk n) : Exact disk m t := by
  have hview := ht.lists.view
  refine ⟨hsteady, fun key n hn => ?_, fun key n hn => ?_⟩
  · refine ⟨fun a ha => ?_, (hsound key n hn).straight⟩
    exact hview.alike.settles hd hm hnamed hw.resting.inv hw.neat (hsteady.resting.inv.nodes key n hn).owned
      (ht.lists.fresh key n hn)
      ((hsound key n hn).settled a ha)
  · intro a ha hsome path hpath hstd z hz
    rw [importPaths_congr fun file _ => read_congr hview.held file] at hpath
    rw [hview.layout] at hstd
    have hl := hw.resting.inv.modules
    have hdot := (ht.neat_importPaths hw.neat hn path hpath).dotFree
    rw [hview.freshPackages hd hl (Layout.relative_of_not_standard hl hnamed hstd) hdot] at hz
    exact ht.records key n hn a ha hsome path hpath hstd z hz

/-- A package without a turn leaves what is shown for its files. -/
theorem Steady.last_unturned (h : Steady disk m w) {ps : Published} {key : String}
    (hnone : key ∉ (w.turns disk lint).map Prod.fst) {n : PackageNode} (hn : w.packages.find? key = some n)
    {file : Path}
    (hf : file ∈ n.files) :
    Published.last (ps ++ (w.turns disk lint).flatMap (given disk lint)) file = Published.last ps file := by
  refine Published.last_append_of_none fun e he => ?_
  obtain ⟨turn, hturn, he⟩ := List.mem_flatMap.mp he
  obtain ⟨hsteady, ⟨n', hn', -⟩, -⟩ := h.forall_turns hd hm hnamed lint turn hturn
  refine h.given_other hd hm lint hn hf hsteady ?_ (contains_iff.mpr ⟨n', hn'⟩) e he
  intro heq
  exact hnone (heq ▸ List.mem_map_of_mem (f := Prod.fst) hturn)

theorem Surfaced.alike (ht : Traced disk m w t) (hw : Steady disk m w) {key : String} {n : PackageNode}
    (hn : t.packages.find? key = some n) {surface : Option Surface} (h : Surfaced disk w n surface) :
    Surfaced disk t n surface := by
  obtain ⟨depth, h⟩ := h
  refine ⟨depth, fun fuel hfuel => ?_⟩
  rw [ht.lists.view.alike.batchWithin hd hm hnamed hw.resting.inv hw.neat fuel (ht.inv.nodes key n hn).owned
    (ht.lists.fresh key n hn)]
  exact h fuel hfuel

end

section
variable {dir : Path} {edited : String} (hd : disk.WellNamed) (hm : m.dir.Rooted) (hnamed : m.Named)
  (h : Carried disk m dir edited g w) (htimely : Timely disk lint g w)
include hd hm hnamed h htimely

/-- Publishing leaves the graph of the last turn, and nothing in it is outdated. -/
theorem Carried.ends_sound : Ends (publishAll disk lint) w fun _ t =>
    Amid disk m g w ((w.turns disk lint).map Prod.fst) t ∧
      ∀ key n, t.packages.find? key = some n → w.Sound disk n := by
  have hlast : ((publishAll disk lint).run w).2 = ((w.turns disk lint).map Prod.fst).foldl (afterTurn disk lint) w :=
    snd_publishWithin (w.tracked.length + 1) [] w
  have hall := h.amid hd hm hnamed htimely (List.append_nil (w.turns disk lint)).symm
  rw [ends_iff, hlast]
  refine ⟨hall, fun key n hn => ?_⟩
  by_contra hwrong
  obtain ⟨-, -, path, -, -, -, -, hcome⟩ :=
    h.news_to_come hd hm hnamed (List.append_nil (w.turns disk lint)).symm hall hn hwrong
  exact nomatch hcome

omit htimely in
/-- A package without a turn, for which someone has asked, is as it was before the edit, and right before and after.
-/
theorem Carried.unturned (ht : Amid disk m g w ((w.turns disk lint).map Prod.fst) t)
    (hlast : t = ((w.turns disk lint).map Prod.fst).foldl (afterTurn disk lint) w)
    (hsound : ∀ key n, t.packages.find? key = some n → w.Sound disk n) {key : String} {n : PackageNode}
    (hn : w.packages.find? key = some n) (hasked : n.state ≠ .untracked) (htracked : key ∈ w.tracked)
    (hnone : key ∉ (w.turns disk lint).map Prod.fst) : t.packages.find? key = some n ∧
      g.packages.find? key = some n ∧ ∃ a, n.analysis = some a ∧ g.Settles disk n a ∧ w.Settles disk n a := by
  have hidle : ¬t.Waits key := by
    intro hwaits
    subst hlast
    exact nomatch h.after.turn_of_waits hd hm hnamed (List.append_nil _).symm ht.toSteady htracked hnone hwaits
  have hstill := ((ht.idle key n hn hasked).resolve_left hnone).resolve_left hidle
  have hcurrent : n.state = .current := by
    cases hs : n.state with
    | untracked => exact absurd hs hasked
    | building => exact absurd hs (h.after.resting.states key n hn)
    | dirty => exact absurd ⟨n, hstill, hs⟩ hidle
    | current => rfl
  obtain ⟨a, ha⟩ := Option.isSome_iff_exists.mp ((h.after.resting.inv.nodes key n hn).current hcurrent)
  obtain ⟨-, hbefore, -⟩ := h.touched.known_before h.before hn ha
  exact ⟨hstill, hbefore, a, ha, (h.before.sound key n hbefore).settled a ha, (hsound key n hstill).settled a ha⟩

omit htimely in
/-- What has been published in the end are the surfaces of packages. -/
theorem Carried.heralds_after (ht : Amid disk m g w ((w.turns disk lint).map Prod.fst) t)
    (hlast : t = ((w.turns disk lint).map Prod.fst).foldl (afterTurn disk lint) w)
    (hsound : ∀ key n, t.packages.find? key = some n → w.Sound disk n) : Heralds disk t := by
  intro key surface hpublished
  by_cases hdone : key ∈ (w.turns disk lint).map Prod.fst
  · obtain ⟨n, surface', hn, hasked, hsame, hsurfaced⟩ := ht.right key hdone
    rw [hpublished] at hsame
    cases hsame
    obtain ⟨turn, hturn, rfl⟩ := List.mem_map.mp hdone
    refine ⟨ht.tracked_eq ▸ tracked_of_turnsWithin turn hturn, n, hn, hasked, ?_⟩
    exact hsurfaced.alike hd hm hnamed ht.traced h.after hn
  · rw [ht.published key hdone] at hpublished
    obtain ⟨key', hkey', hbeq⟩ := Table.exists_key_of_find? hpublished
    obtain rfl : key = key' := eq_of_beq hbeq
    obtain ⟨n, hn⟩ := contains_iff.mp (h.after.resting.inv.refs.published key hkey')
    have hbefore : g.published.find? key = some surface := by
      rcases h.touched.published key with hsame | ⟨-, hnone⟩
      · rw [← hsame, hpublished]
      · rw [hnone] at hpublished
        cases hpublished
    obtain ⟨htracked, y, hy, hasked, hsurfaced⟩ := h.heralds key surface hbefore
    have htracked' := h.touched.tracked key htracked (contains_iff.mpr ⟨n, hn⟩)
    have hasked' : n.state ≠ .untracked := by
      by_cases hkey : key = edited
      · subst hkey
        simp [(h.touched.here n hn).2.2]
      · rw [h.touched.elsewhere key hkey, hy] at hn
        cases hn
        exact asked_invalidateNode hasked edited
    obtain ⟨hstill, hsame, a, ha, hwas, his⟩ := h.unturned hd hm hnamed ht hlast hsound hn hasked' htracked' hdone
    rw [hy] at hsame
    cases hsame
    obtain rfl := hsurfaced.unique hwas.surfaced
    exact ⟨ht.tracked_eq ▸ htracked', _, hstill, hasked, his.surfaced.alike hd hm hnamed ht.traced h.after hstill⟩

/-- The turn of a package makes its files show what checking from scratch gives. -/
theorem Carried.shows_of_turn {ps : Published} {key : String} (hturn : (key, t) ∈ w.turns disk lint)
    {n : PackageNode}
    (hn : w.packages.find? key = some n) {file : Path} (hf : file ∈ n.files) :
    Shows disk lint (ps ++ (w.turns disk lint).flatMap (given disk lint)) w file n := by
  obtain ⟨before, after, heq⟩ := List.append_of_mem hturn
  have ht := h.amid hd hm hnamed htimely heq
  obtain rfl : t = (before.map Prod.fst).foldl (afterTurn disk lint) w := graph_of_turn heq
  obtain ⟨x, hclear⟩ := h.clear hd hm hnamed htimely heq ht
  have hbare : n.bare = x.bare := (h.start hd hm hnamed).traced.toFollows.bare_eq ht.traced.toFollows hn hclear.found
  have hnodup := h.after.nodup_turns hd hm hnamed lint
  rw [heq, List.map_append, List.nodup_append] at hnodup
  have hpath : key ∉ before.map Prod.fst := fun hmem => hnodup.2.2 key hmem key (by simp) rfl
  have hends : Ends (publishPackage disk lint key) ((before.map Prod.fst).foldl (afterTurn disk lint) w) _ :=
    ht.ends_turn hd hm hnamed h hpath hclear
  obtain ⟨depth, hgiven⟩ : ∃ depth, ∀ fuel, depth ≤ fuel → given disk lint (key, _) = w.scratch disk lint fuel x :=
    (ends_iff.mp hends).2
  have hf' : file ∈ x.files := (PackageNode.of_bare_eq hbare).2.1 ▸ hf
  have hentry : ∃ e ∈ given disk lint (key, (before.map Prod.fst).foldl (afterTurn disk lint) w),
      (e.1 == file) = true := by
    rw [hgiven depth (Nat.le_refl depth)]
    exact FileDiagnostics.listed_ofTurn lint hf'
  refine ⟨depth, fun fuel hfuel => ?_⟩
  rw [h.after.last_turns hd hm lint hnamed hturn hclear.found hf' hentry, hgiven fuel hfuel, scratch_congr hbare]

/-- Publishing makes everything known right, and makes everything show what it should. -/
theorem Carried.ends_publishAll (ps : Published) : Ends (publishAll disk lint) w fun qs t =>
    Exact disk m t ∧ Heralds disk t ∧ Keeps w t ∧ SameView disk m w t ∧
      ∀ file, Due disk lint ps g w file → Told disk lint (ps ++ qs) t file := by
  have hlast : Ends (publishAll disk lint) w fun _ t =>
      t = ((w.turns disk lint).map Prod.fst).foldl (afterTurn disk lint) w :=
    ends_iff.mpr (snd_publishWithin (w.tracked.length + 1) [] w)
  have hkeeps : Ends (publishAll disk lint) w fun _ t => Keeps w t := keeps_publishAll lint
  have hrun := ((h.ends_sound hd hm hnamed htimely).and hlast).and (ends_turns.and hkeeps)
  refine hrun.mono fun qs t ⟨⟨⟨ht, hsound⟩, hlast⟩, hqs, hkeeps⟩ => ?_
  have hview := ht.traced.lists.view
  refine ⟨ht.traced.exact hd hm hnamed h.after ht.toSteady hsound,
    h.heralds_after hd hm hnamed ht hlast hsound, hkeeps, hview, ?_⟩
  rintro file ⟨key, n, hn, hf, htracked, hasked, hdue⟩
  have hafter : Shows disk lint (ps ++ (w.turns disk lint).flatMap (given disk lint)) w file n ∧
      ∃ n', t.packages.find? key = some n' ∧ n'.state ≠ .untracked := by
    by_cases hdone : key ∈ (w.turns disk lint).map Prod.fst
    · obtain ⟨n', -, hn', hasked', -⟩ := ht.right key hdone
      obtain ⟨⟨key, t'⟩, hturn, rfl⟩ := List.mem_map.mp hdone
      exact ⟨h.shows_of_turn hd hm hnamed htimely hturn hn hf, n', hn', hasked'⟩
    · obtain ⟨hstill, -, a, ha, hwas, his⟩ := h.unturned hd hm hnamed ht hlast hsound hn hasked htracked hdone
      refine ⟨?_, n, hstill, hasked⟩
      rcases hdue with hdirty | ⟨-, hshows⟩
      · have hmem : key ∈ w.dirty := List.mem_filter.mpr ⟨htracked, by simp [hn, hdirty]⟩
        obtain ⟨t', hturn⟩ : ∃ t', (key, t') ∈ w.turns disk lint := mem_turns hmem
        exact absurd (List.mem_map_of_mem (f := Prod.fst) hturn) hdone
      · obtain ⟨depth, hshows⟩ := hshows.of_settled ha hwas his
        refine ⟨depth, fun fuel hfuel => ?_⟩
        rw [h.after.last_unturned hd hm hnamed hdone hn hf]
        exact hshows fuel hfuel
  obtain ⟨⟨depth, hafter⟩, n', hn', hasked'⟩ := hafter
  have hbare : n.bare = n'.bare := (h.start hd hm hnamed).traced.toFollows.bare_eq ht.traced.toFollows hn hn'
  refine ⟨key, n', hn', (PackageNode.of_bare_eq hbare).2.1 ▸ hf, hkeeps.tracked ▸ htracked, hasked', depth, ?_⟩
  intro fuel hfuel
  have hbatch := hview.alike.batchWithin hd hm hnamed h.after.resting.inv h.after.neat fuel
    (h.after.resting.inv.nodes key n hn).owned (h.after.ready.lists.fresh key n hn)
  have hscratch : t.scratch disk lint fuel n = w.scratch disk lint fuel n := by
    unfold scratch
    rw [hbatch]
  rw [hqs, hafter fuel hfuel, ← scratch_congr hbare, hscratch]

end

end IdlWorkbench.Graph
