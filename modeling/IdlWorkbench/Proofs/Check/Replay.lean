import IdlWorkbench.Proofs.Check.Settle

/-!
# A run in any order

A run that enters declarations as they are asked for finds the meanings that checking one declaration at a time
finds, if it ends with nothing wrong; and it ends so if all declarations can be checked one at a time.
-/

namespace IdlWorkbench.Check

variable {K : Ty → Bool} {env env₁ env₂ : Env} {F W : String → Prop} {p n : Nat} {name : String} {d : Declared}
    {c L : Core}

/-! ## States of a run -/

theorem le_add_fuel (env : Env) (p : Nat) : env.decls.length + 1 ≤ p + env.fuel := by
  rw [Env.fuel]
  omega

/-- The names in `F` are finished, those in `W` are being checked, and at least `p` names were entered so far. -/
structure Proper (env : Env) (F W : String → Prop) (p : Nat) (c : Core) : Prop where
  declared : c.progress.keys ⊆ env.decls.keys
  nodup : c.progress.keys.Nodup
  types : c.types.keys.Nodup
  entered : p ≤ c.progress.keys.length
  recursive : c.recursive = []
  finished : ∀ name, F name → c.Finished name
  started : ∀ name, c.progress.find? name = some .started ↔ W name
  unknown : ∀ name, ¬ c.Finished name → c.types.find? name = none ∧ c.consts.find? name = none

theorem Core.progress_begin {other : String} :
    (c.begin name).progress.find? other = if other = name then some .started else c.progress.find? other := by
  simp [begin, Table.find?_insert]

theorem Core.finished_begin {other : String} (hfresh : c.progress.find? name = none) :
    (c.begin name).Finished other ↔ c.Finished other := by
  rw [Finished, Finished, progress_begin]
  by_cases h : other = name
  · simp [h, hfresh]
  · simp [h]

namespace Proper

/-- No more names are entered than there are. -/
theorem entered_le (h : Proper env F W p c) : p ≤ env.decls.length := by
  have hle := h.nodup.length_le_of_subset h.declared
  rw [Table.keys, Table.keys, List.length_map, List.length_map] at hle
  have hp := h.entered
  rw [Table.keys, List.length_map] at hp
  omega

/-- So there is fuel left. -/
theorem exists_succ (h : Proper env F W p c) (hn : env.decls.length + 1 ≤ p + n) : ∃ k, n = k + 1 := by
  refine Nat.exists_eq_succ_of_ne_zero fun h0 => ?_
  have := h.entered_le
  omega

theorem begin (h : Proper env F W p c) (hd : env.decls.find? name = some d) (hfresh : c.progress.find? name = none) :
    Proper env F (fun x => W x ∨ x = name) (p + 1) (c.begin name) := by
  refine ⟨fun other hmem => ?_, Table.nodup_keys_insert h.nodup _ _, h.types, ?_, h.recursive, fun other hF => ?_,
    fun other => ?_, fun other hf => h.unknown other fun hf' => hf ((Core.finished_begin hfresh).mpr hf')⟩
  · rcases Table.mem_keys_insert.mp hmem with hmem | rfl
    · exact h.declared hmem
    · exact Table.mem_keys_iff.mpr ⟨d, hd⟩
  · have hnot : c.progress.keys.any (· == name) = false := by
      rw [Bool.eq_false_iff]
      intro hany
      obtain ⟨x, hx, he⟩ := List.any_eq_true.mp hany
      obtain ⟨a, ha⟩ := Table.mem_keys_iff.mp hx
      rw [beq_iff_eq.mp he, hfresh] at ha
      cases ha
    rw [Core.begin, Table.keys_insert, hnot]
    simpa using h.entered
  · exact (Core.finished_begin hfresh).mpr (h.finished other hF)
  · rw [Core.progress_begin]
    by_cases he : other = name
    · simp [he]
    · simp [he, h.started]

theorem finish (h : Proper env F (fun x => W x ∨ x = name) (p + 1) c) (hW : ¬ W name) (m : Meaning) :
    Proper env F W p (c.finish name m) := by
  have hmem : name ∈ c.progress.keys := Table.mem_keys_iff.mpr ⟨_, (h.started name).mpr (Or.inr rfl)⟩
  have hkeys : (c.finish name m).progress.keys = c.progress.keys := by
    rw [Core.finish, Table.keys_insert, if_pos]
    exact List.any_eq_true.mpr ⟨name, hmem, beq_self_eq_true name⟩
  refine ⟨hkeys ▸ h.declared, hkeys ▸ h.nodup, ?_, ?_, h.recursive, fun other hF => ?_, fun other => ?_,
    fun other hf => ?_⟩
  · unfold Core.finish
    cases m.type? with
    | none => exact h.types
    | some t => exact Table.nodup_keys_insert h.types _ _
  · rw [hkeys]
    have := h.entered
    omega
  · exact Core.finished_finish.mpr (Or.inr (h.finished other hF))
  · rw [Core.progress_finish]
    by_cases he : other = name
    · simpa [he] using hW
    · simp [he, h.started]
  · rw [Core.finished_finish, not_or] at hf
    rw [Core.types_finish hf.1, Core.consts_finish hf.1]
    exact h.unknown other hf.2

theorem mono {F' : String → Prop} (h : Proper env F W p c) (hF : ∀ x, F' x → F x) : Proper env F' W p c :=
  { h with finished := fun x hx => h.finished x (hF x hx) }

/-- A name that is finished besides. -/
theorem also (h : Proper env F W p c) (hf : c.Finished name) : Proper env (fun x => F x ∨ x = name) W p c :=
  { h with
    finished := by
      rintro other (hF | rfl)
      · exact h.finished other hF
      · exact hf }

end Proper

/-! ## What a clean run finds -/

theorem Core.Sub.trans {c₁ c₂ c₃ : Core} (h : c₁.Sub c₂) (h' : c₂.Sub c₃) : c₁.Sub c₃ := by
  intro name hf
  obtain ⟨hf₂, ht₂, hc₂⟩ := h name hf
  obtain ⟨hf₃, ht₃, hc₃⟩ := h' name hf₂
  exact ⟨hf₃, ht₃.trans ht₂, hc₃.trans hc₂⟩

theorem Core.Sub.begin (h : c.Sub L) (hfresh : c.progress.find? name = none) : (c.begin name).Sub L :=
  fun other hf => h other ((Core.finished_begin hfresh).mp hf)

/-- The meaning that is found for a name is the one it has. -/
theorem Core.Sub.finish {m : Meaning} (h : c.Sub L) (hnone : c.types.find? name = none ∧ c.consts.find? name = none)
    (hf : L.Finished name) (hm : L.Holds name m) : (c.finish name m).Sub L := by
  intro other hother
  by_cases he : other = name
  · subst he
    obtain ⟨htypes, hconsts⟩ := holds_finish hnone (m := m)
    exact ⟨hf, hm.1.trans htypes.symm, hm.2.trans hconsts.symm⟩
  · rw [types_finish he, consts_finish he]
    exact h other ((finished_finish.mp hother).resolve_left he)

/-- A declaration that is entered and found to mean what it means in `L`. -/
theorem proper_ask_fresh {s : State} (hd : env.decls.find? name = some d) (hfresh : s.progress.find? name = none)
    (hp : Proper env F W p s.core)
    (hp' : Proper env F (fun x => W x ∨ x = name) (p + 1) ((define env n d).run (s.begin name)).2.core)
    (hsub : ((define env n d).run (s.begin name)).2.core.Sub L) (hf : L.Finished name)
    (hm : L.Holds name ((define env n d).run (s.begin name)).1) :
    Proper env F W p ((ask env (n + 1) name d).run s).2.core ∧ ((ask env (n + 1) name d).run s).2.core.Sub L := by
  have hW : ¬ W name := fun hW => by
    have hstart := (hp.started name).mpr hW
    rw [show s.core.progress.find? name = none from hfresh] at hstart
    cases hstart
  have hopen := Core.not_finished ((hp'.started name).mpr (Or.inr rfl))
  rw [(run_ask_fresh (K := fun _ => true) n hd hfresh).2.1]
  exact ⟨hp'.finish hW _, hsub.finish (hp'.unknown name hopen) hf hm⟩

theorem Closed.finished (hc : Closed K env L) (h : Sound K env L) (hd : env.decls.find? name = some d)
    (hclean : ((define env env.fuel d).run L.state).2.clean K = true) : L.Finished name := by
  refine (h.total name d hd).resolve_left fun hstart => ?_
  rw [hc name d hd hstart] at hclean
  cases hclean

/-- A run finds the meanings of the closed state. The induction is on the number of names not entered so far,
since a constant asks for types as if no name had been entered. -/
theorem Closed.asks (hc : Closed K env L) (h : Sound K env L) (m : Mirrors env env) (left : Nat) :
    ∀ {F W : String → Prop} {p n : Nat}, env.decls.length + 1 ≤ p + n → env.decls.length + 1 ≤ p + left →
      Asks K (fun s t => (Proper env F W p s ∧ s.Sub L) ∧ t = L) env env n env.fuel := by
  induction left with
  | zero =>
    intro F W p n _ hleft name d hd
    refine ⟨m.back_ask n name d, fun _ s t hj => ?_⟩
    have := hj.1.1.entered_le
    omega
  | succ left ih =>
    intro F W p n hn hleft name d hd
    refine ⟨m.back_ask n name d, ?_⟩
    rintro - s t ⟨⟨hp, hsub⟩, ht⟩ hclean hclean'
    obtain ⟨n, rfl⟩ := hp.exists_succ hn
    cases hprogress : s.progress.find? name with
    | some state =>
      cases state with
      | started =>
        rw [not_clean_ask_started n hd hprogress hp.recursive] at hclean
        cases hclean
      | finished =>
        have hf : s.core.Finished name := hprogress
        have hft : t.core.Finished name := ht ▸ (hsub name hf).1
        rw [run_ask_finished n hf, Env.fuel, run_ask_finished _ hft]
        have hread := hsub.read hf d
        refine ⟨?_, ?_, ⟨⟨hp, hsub⟩, ht⟩, hclean'⟩
        · rw [ht]
          exact hread
        · rw [← hread]
          exact h.known name d hd (hsub name hf).1
    | none =>
      obtain ⟨hvalue, -, hcl⟩ := run_ask_fresh (K := K) n hd hprogress
      rw [hcl] at hclean
      -- the declaration is entered: one name more, and it is clean in the closed state as well
      have hasks (k : Nat) (hk : env.decls.length + 1 ≤ p + 1 + k) :=
        ih (F := F) (W := fun x => W x ∨ x = name) hk (by omega)
      have hdefine := follows_define_self (d := d) m (hasks env.fuel (le_add_fuel env _)) (hasks n (by omega))
      obtain ⟨heq, hknown, ⟨⟨hp', hsub'⟩, -⟩, hclosed⟩ := hdefine.ahead trivial (s.begin name) L.state
        ⟨⟨hp.begin hd hprogress, hsub.begin hprogress⟩, rfl⟩ hclean (clean_state L)
      have hf := hc.finished h hd hclosed
      have hmeaning := h.meaning name d hd hf
      have hread := hmeaning.read
      rw [heq] at hmeaning hread
      have hft : t.core.Finished name := ht ▸ hf
      rw [hvalue, Env.fuel, run_ask_finished _ hft]
      refine ⟨?_, hknown, ⟨proper_ask_fresh hd hprogress hp hp' hsub' hf hmeaning, ht⟩, hclean'⟩
      rw [ht]
      exact hread

/-! ## Runs that end clean -/

theorem ask_inFile (file : Nat) : ask env n name (d.inFile file) = ask env n name d := by cases d <;> rfl

/-- What was checked one declaration at a time, a run finds as well, also in another environment. The induction
is on those declarations: a run that enters one of them enters only those before it. -/
theorem Grounded.finds (m : Mirrors env₁ env₂) (h : Grounded K env₁ c) (hL : c.Sub L) :
    ∀ {F W : String → Prop} {p n : Nat},
    env₂.decls.length + 1 ≤ p + n → (∀ x, W x → ¬ c.Finished x) →
      Finds K (fun t => Proper env₂ F W p t ∧ t.Sub L) c env₁ env₂ n := by
  induction h with
  | start => exact fun _ _ _ _ _ hf => (not_finished_initial hf).elim
  | @step c last d hg hd hstart hclean ih =>
    have hsound := hg.sound m
    have hopen : ¬ c.Finished last := Core.not_finished hstart
    have hsub : c.Sub (c.finish last ((define env₁ env₁.fuel d).run c.state).1) := Core.sub_finish hopen
    have hholds := Core.holds_finish (m := ((define env₁ env₁.fuel d).run c.state).1) (hsound.unknown last hopen)
    intro F W p n hn hW name e he hf t ⟨hp, htL⟩ hclean'
    by_cases hne : name = last
    · subst hne
      cases hd.symm.trans he
      obtain ⟨n, rfl⟩ := hp.exists_succ hn
      cases hprogress : t.progress.find? name with
      | some state =>
        cases state with
        | started => exact (hW name ((hp.started name).mp hprogress) hf).elim
        | finished =>
          have hft : t.core.Finished name := hprogress
          rw [run_ask_finished n hft, ← htL.read hft d, hL.read hf d]
          exact ⟨rfl, ⟨hp, htL⟩, hclean'⟩
      | none =>
        obtain ⟨file, hd₂, hfile⟩ := m.declared name d hd
        obtain ⟨hvalue, -, hcl⟩ := run_ask_fresh (K := K) n hd₂ hprogress
        -- what it asks for was finished before it, so the names being checked are still not among those
        have hW' : ∀ x, W x ∨ x = name → ¬ c.Finished x := by
          rintro x (hx | rfl) hfx
          · exact hW x hx (hsub x hfx).1
          · exact hopen hfx
        have hasks (k : Nat) (hk : env₂.decls.length + 1 ≤ p + 1 + k) := hsound.toFrozen.follows m
          (ih (hsub.trans hL) (F := F) (W := fun x => W x ∨ x = name) hk hW')
        obtain ⟨heq, -, ⟨-, hp', htL'⟩, hclean''⟩ := (follows_define m (hasks env₂.fuel (le_add_fuel env₂ _))
          (hasks n (by omega)) hfile).ahead trivial c.state (t.begin name)
            ⟨rfl, hp.begin hd₂ hprogress, htL.begin hprogress⟩ hclean hclean'
        obtain ⟨hfL, htypes, hconsts⟩ := hL name hf
        have hmeaning : L.Holds name ((define env₂ n (d.inFile file)).run (t.begin name)).1 := by
          rw [heq]
          exact ⟨htypes.trans hholds.1, hconsts.trans hholds.2⟩
        rw [← ask_inFile file, hvalue, hcl, hholds.read]
        exact ⟨heq, proper_ask_fresh hd₂ hprogress hp hp' htL' hfL hmeaning, hclean''⟩
    · have hf : c.Finished name := (Core.finished_finish.mp hf).resolve_left hne
      rw [hsub.read hf e]
      exact ih (hsub.trans hL) hn (fun x hx hfx => hW x hx (hsub x hfx).1) name e he hf t ⟨hp, htL⟩ hclean'

/-! ## All declarations in turn -/

def askAll (env : Env) (ds : List (String × Declared)) (s : State) : State :=
  ds.foldl (fun s e => ((ask env env.fuel e.1 e.2).run s).2) s

theorem run_resolveAll (env : Env) (s : State) : ((resolveAll env).run s).2 = askAll env env.decls s := by
  unfold resolveAll
  rw [run_bind]
  generalize env.decls = ds
  induction ds generalizing s with
  | nil => rfl
  | cons e ds ih =>
    obtain ⟨name, d⟩ := e
    rw [List.forIn_cons, run_bind]
    cases d with
    | type file spec => exact ih _
    | const file id type value iota => exact ih _

theorem finished_of_ask {s : State} (hd : env.decls.find? name = some d) (hr : s.recursive = [])
    (hclean : ((ask env env.fuel name d).run s).2.clean K = true) :
    ((ask env env.fuel name d).run s).2.core.Finished name := by
  rw [Env.fuel] at hclean ⊢
  cases hprogress : s.progress.find? name with
  | some state =>
    cases state with
    | started =>
      rw [not_clean_ask_started _ hd hprogress hr] at hclean
      cases hclean
    | finished =>
      rw [run_ask_finished _ hprogress]
      exact hprogress
  | none =>
    rw [(run_ask_fresh (K := K) _ hd hprogress).2.1]
    exact Core.finished_finish.mpr (Or.inl rfl)

theorem Mirrors.back_askAll (m : Mirrors env env₂) : ∀ (ds : List (String × Declared)) (s : State),
    (askAll env ds s).clean K = true → s.clean K = true
  | [], _, h => h
  | e :: ds, s, h => m.back_ask env.fuel e.1 e.2 s (m.back_askAll ds _ h)

theorem mem_keys_cons {ds : List (String × Declared)} {x : String} (h : F x ∨ x ∈ Table.keys ((name, d) :: ds)) :
    (F x ∨ x = name) ∨ x ∈ Table.keys ds := by
  simpa only [Table.keys, List.map_cons, List.mem_cons, or_assoc] using h

theorem Closed.askAll (hc : Closed K env L) (h : Sound K env L) (m : Mirrors env env) : ∀ {F : String → Prop}
    (ds : List (String × Declared)) {s : State}, (∀ e ∈ ds, env.decls.find? e.1 = some e.2) →
    Proper env F (fun _ => False) 0 s.core → s.core.Sub L → (askAll env ds s).clean K = true →
    Proper env (fun x => F x ∨ x ∈ Table.keys ds) (fun _ => False) 0 (askAll env ds s).core ∧
    (askAll env ds s).core.Sub L
  | F, [], s, _, hp, hsub, _ => ⟨hp.mono fun x hx => hx.resolve_right (by simp [Table.keys]), hsub⟩
  | F, (name, d) :: ds, s, hds, hp, hsub, hclean => by
    have hd := hds _ List.mem_cons_self
    have hclean' := m.back_askAll ds _ hclean
    have hasks := hc.asks h m (F := F) (W := fun _ => False) env.fuel (le_add_fuel env 0) (le_add_fuel env 0)
    obtain ⟨-, -, ⟨⟨hp', hsub'⟩, -⟩, -⟩ :=
      (hasks name d hd).ahead trivial s L.state ⟨⟨hp, hsub⟩, rfl⟩ hclean' (clean_state L)
    have hfin := finished_of_ask hd hp.recursive hclean'
    obtain ⟨hp'', hsub''⟩ :=
      hc.askAll h m ds (fun e he => hds e (List.mem_cons_of_mem _ he)) (hp'.also hfin) hsub' hclean
    exact ⟨hp''.mono fun x hx => mem_keys_cons hx, hsub''⟩

theorem Mirrors.exists_declared (m : Mirrors env₁ env₂) (hd : env₂.decls.find? name = some d) :
    ∃ e file, env₁.decls.find? name = some e ∧ d = e.inFile file := by
  cases he : env₁.decls.find? name with
  | none =>
    rw [m.undeclared name he] at hd
    cases hd
  | some e =>
    obtain ⟨file, hfile, -⟩ := m.declared name e he
    exact ⟨e, file, rfl, Option.some.inj (hd.symm.trans hfile)⟩

theorem Grounded.askAll (m : Mirrors env₁ env₂) (h : Grounded K env₁ L)
    (hall : ∀ name d, env₁.decls.find? name = some d → L.Finished name) : ∀ {F : String → Prop}
    (ds : List (String × Declared)) {t : State}, (∀ e ∈ ds, env₂.decls.find? e.1 = some e.2) →
    Proper env₂ F (fun _ => False) 0 t.core → t.core.Sub L → t.clean K = true →
    Proper env₂ (fun x => F x ∨ x ∈ Table.keys ds) (fun _ => False) 0 (askAll env₂ ds t).core ∧
      (askAll env₂ ds t).core.Sub L ∧ (askAll env₂ ds t).clean K = true
  | F, [], t, _, hp, hsub, hclean => ⟨hp.mono fun x hx => hx.resolve_right (by simp [Table.keys]), hsub, hclean⟩
  | F, (name, d) :: ds, t, hds, hp, hsub, hclean => by
    have hd : env₂.decls.find? name = some d := hds _ List.mem_cons_self
    obtain ⟨e, file, he, rfl⟩ := m.exists_declared hd
    have hfinds := h.finds m (Core.Sub.refl L) (F := F) (W := fun _ => False) (le_add_fuel env₂ 0)
      fun _ hx => hx.elim
    obtain ⟨-, ⟨hp', hsub'⟩, hclean'⟩ := hfinds name e he (hall name e he) t ⟨hp, hsub⟩ hclean
    rw [← ask_inFile file] at hp' hsub' hclean'
    have hfin := finished_of_ask hd hp.recursive hclean'
    obtain ⟨hp'', hsub'', hclean''⟩ :=
      h.askAll m hall ds (fun e he => hds e (List.mem_cons_of_mem _ he)) (hp'.also hfin)
      hsub' hclean'
    exact ⟨hp''.mono fun x hx => mem_keys_cons hx, hsub'', hclean''⟩

/-! ## The whole package -/

/-- Every declaration has its meaning, and nothing else has one. -/
structure Complete (env : Env) (c : Core) : Prop where
  finished : ∀ name d, env.decls.find? name = some d → c.Finished name
  declared : ∀ name, c.Finished name → ∃ d, env.decls.find? name = some d
  undeclared : ∀ name, env.decls.find? name = none → c.types.find? name = none ∧ c.consts.find? name = none
  types : c.types.keys.Nodup
  recursive : c.recursive = []

theorem proper_empty (env : Env) : Proper env (fun _ => False) (fun _ => False) 0 ⟨[], [], [], []⟩ where
  declared := nofun
  nodup := List.nodup_nil
  types := List.nodup_nil
  entered := Nat.zero_le _
  recursive := rfl
  finished _ h := h.elim
  started _ := ⟨nofun, nofun⟩
  unknown _ _ := ⟨rfl, rfl⟩

theorem Proper.complete (h : Proper env F W p c) (hF : ∀ x ∈ env.decls.keys, F x) : Complete env c where
  finished name d hd := h.finished name (hF name (Table.mem_keys_iff.mpr ⟨d, hd⟩))
  declared name hf := Table.mem_keys_iff.mp (h.declared (Table.mem_keys_iff.mpr ⟨_, hf⟩))
  undeclared name hnone := by
    refine h.unknown name fun hf => ?_
    obtain ⟨d, hd⟩ := Table.mem_keys_iff.mp (h.declared (Table.mem_keys_iff.mpr ⟨_, hf⟩))
    rw [hnone] at hd
    cases hd
  types := h.types
  recursive := h.recursive

/-- If resolving all declarations ends clean, then so it does in an environment that mirrors this one, and every
name has the same meaning there. -/
theorem resolveAll_mirrors (m : Mirrors env₁ env₂) (hn₁ : env₁.decls.keys.Nodup) (hn₂ : env₂.decls.keys.Nodup)
    {s t : State}
    (hs : s.core = ⟨[], [], [], []⟩) (ht : t.core = ⟨[], [], [], []⟩) (htc : t.clean K = true)
    (h : ((resolveAll env₁).run s).2.clean K = true) :
    ((resolveAll env₂).run t).2.clean K = true ∧ Frozen env₁ ((resolveAll env₁).run s).2.core ∧
      Complete env₁ ((resolveAll env₁).run s).2.core ∧ Complete env₂ ((resolveAll env₂).run t).2.core ∧
      ∀ name, ((resolveAll env₂).run t).2.types.find? name = ((resolveAll env₁).run s).2.types.find? name ∧
        ((resolveAll env₂).run t).2.consts.find? name = ((resolveAll env₁).run s).2.consts.find? name := by
  simp only [run_resolveAll] at h ⊢
  obtain ⟨L, hL, hclosed⟩ := (Grounded.start : Grounded K env₁ (initial env₁)).exists_closed
  have hsound := hL.sound m
  have hempty (c : Core) : Core.Sub ⟨[], [], [], []⟩ c := fun _ hf => nomatch hf
  -- the first run finds what the closed state knows, and it finishes every name; so does the second one then
  obtain ⟨hp, hsub⟩ := hclosed.askAll hsound m.self (F := fun _ => False) env₁.decls
    (fun e he => Table.find?_of_mem hn₁ he) (hs ▸ proper_empty env₁) (hs ▸ hempty L) h
  have hc₁ := hp.complete fun x hx => Or.inr hx
  obtain ⟨hp₂, hsub₂, hclean₂⟩ :=
    hL.askAll m (fun name d hd => (hsub name (hc₁.finished name d hd)).1) (F := fun _ => False)
    env₂.decls (fun e he => Table.find?_of_mem hn₂ he) (ht ▸ proper_empty env₂) (ht ▸ hempty L) htc
  have hc₂ := hp₂.complete fun x hx => Or.inr hx
  refine ⟨hclean₂, ⟨fun name d hd => Or.inr (hc₁.finished name d hd), hc₁.recursive, fun name d hd hf => ?_⟩, hc₁,
    hc₂,
    fun name => ?_⟩
  · rw [← hsub.read hf d]
    exact hsound.known name d hd (hsub name hf).1
  · cases hd : env₁.decls.find? name with
    | none =>
      obtain ⟨ht₁, hc₁⟩ := hc₁.undeclared name hd
      obtain ⟨ht₂, hc₂⟩ := hc₂.undeclared name (m.undeclared name hd)
      exact ⟨ht₂.trans ht₁.symm, hc₂.trans hc₁.symm⟩
    | some d =>
      obtain ⟨file, hd₂, -⟩ := m.declared name d hd
      obtain ⟨-, ht₁, hc₁⟩ := hsub name (hc₁.finished name d hd)
      obtain ⟨-, ht₂, hc₂⟩ := hsub₂ name (hc₂.finished name _ hd₂)
      exact ⟨ht₂.symm.trans ht₁, hc₂.symm.trans hc₁⟩

end IdlWorkbench.Check
