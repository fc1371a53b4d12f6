import Mathlib.Data.List.Forall2

/-!
# Actions and what they end in

`Ends act s Q` says that the answer of an action that starts in state `s` and the state after it satisfy `Q`.
An action that may fail answers with a value or an error. The rules below take an action apart along its
steps, so that nothing else has to look into the state monad.
-/

namespace IdlWorkbench

/-! ## Answers that may be errors -/

section
variable {ε α β : Type}

theorem bind_eq_ok {x : Except ε α} {f : α → Except ε β} {b : β} :
    (x >>= f) = .ok b ↔ ∃ a, x = .ok a ∧ f a = .ok b := by
  cases x <;> simp [bind, Except.bind]

theorem ok_of_toOption {x : Except ε α} {a : α} (h : x.toOption = some a) : x = .ok a := by
  cases x with
  | error e => cases h
  | ok b => exact congrArg Except.ok (Option.some_inj.mp h)

theorem pure_eq_ok {a b : α} : (pure a : Except ε α) = .ok b ↔ a = b := by
  simp [pure, Except.pure]

theorem forall_of_filterMapM {f : α → Except ε (Option β)} {P : β → Prop} : ∀ {as : List α} {bs : List β},
    (∀ a ∈ as, ∀ b, f a = .ok (some b) → P b) → as.filterMapM f = .ok bs → ∀ b ∈ bs, P b
  | [], bs, _, h => by
    rw [List.filterMapM_nil, pure_eq_ok] at h
    simp [← h]
  | a :: as, bs, hf, h => by
    have ih : ∀ bs', as.filterMapM f = .ok bs' → ∀ b ∈ bs', P b := fun _ h' =>
      forall_of_filterMapM (fun a ha => hf a (List.mem_cons_of_mem _ ha)) h'
    rw [List.filterMapM_cons] at h
    obtain ⟨r, hr, h⟩ := bind_eq_ok.mp h
    cases r with
    | none => exact ih bs h
    | some b =>
      obtain ⟨rest, hrest, h⟩ := bind_eq_ok.mp h
      rw [pure_eq_ok] at h
      intro c hc
      rw [← h] at hc
      rcases List.mem_cons.mp hc with rfl | hc
      · exact hf a (by simp) c hr
      · exact ih rest hrest c hc

end

/-! ## Actions on a state -/

section
variable {σ α β : Type}

/-- The answer of an action and the state after it satisfy a condition. -/
def Ends (act : StateM σ α) (s : σ) (Q : α → σ → Prop) : Prop := Q (act.run s).1 (act.run s).2

variable {s : σ} {Q : α → σ → Prop}

theorem Ends.mono {act : StateM σ α} {Q' : α → σ → Prop} (h : Ends act s Q) (hq : ∀ a t, Q a t → Q' a t) :
    Ends act s Q' := hq _ _ h

theorem Ends.and {act : StateM σ α} {Q' : α → σ → Prop} (h : Ends act s Q) (h' : Ends act s Q') :
    Ends act s fun a t => Q a t ∧ Q' a t := ⟨h, h'⟩

theorem ends_congr {act : StateM σ α} {Q' : α → σ → Prop} (h : ∀ a t, Q a t ↔ Q' a t) :
    Ends act s Q ↔ Ends act s Q' := h _ _

theorem ends_iff {act : StateM σ α} : Ends act s Q ↔ Q (act.run s).1 (act.run s).2 := Iff.rfl

/-- Actions that end in the same are the same, from the state on that they start in. -/
theorem run_eq_of_ends {x y : StateM σ α} (h : ∀ Q : α → σ → Prop, Ends y s Q → Ends x s Q) : x.run s = y.run s :=
  h (fun a t => (a, t) = y.run s) rfl

theorem ends_pure {a : α} : Ends (pure a) s Q ↔ Q a s := Iff.rfl

theorem ends_bind {x : StateM σ β} {f : β → StateM σ α} :
    Ends (x >>= f) s Q ↔ Ends x s fun b t => Ends (f b) t Q := Iff.rfl

theorem ends_get {Q : σ → σ → Prop} : Ends get s Q ↔ Q s s := Iff.rfl

theorem ends_modify {f : σ → σ} {Q : PUnit → σ → Prop} : Ends (modify f) s Q ↔ Q ⟨⟩ (f s) := Iff.rfl

/-- What each round keeps, a list of rounds keeps, and the answers are those of the rounds. -/
theorem ends_mapM {f : α → StateM σ β} {I : σ → Prop} {P : α → β → Prop} : ∀ {as : List α} {s : σ},
    (∀ a ∈ as, ∀ s, I s → Ends (f a) s fun b t => I t ∧ P a b) → I s →
      Ends (as.mapM f) s fun bs t => I t ∧ List.Forall₂ P as bs
  | [], _, _, hs => ⟨hs, .nil⟩
  | a :: as, s, hf, hs => by
    rw [List.mapM_cons, ends_bind]
    refine (hf a (by simp) s hs).mono fun b t ht => ?_
    have ih := ends_mapM (fun a ha => hf a (List.mem_cons_of_mem _ ha)) ht.1
    rw [ends_bind]
    exact ih.mono fun bs u hu => ⟨hu.1, .cons ht.2 hu.2⟩

theorem forall_of_forall₂ {P : β → Prop} {as : List α} {bs : List β} (h : List.Forall₂ (fun _ b => P b) as bs) :
    ∀ b ∈ bs, P b := by
  induction h with
  | nil => exact nofun
  | cons h _ ih => exact List.forall_mem_cons.mpr ⟨h, ih⟩

end

/-! ## Actions that may fail -/

section
variable {σ ε ε' α β : Type} {s : σ} {Q : Except ε α → σ → Prop}

theorem ends_ok {a : α} : Ends (pure a : ExceptT ε (StateM σ) α).run s Q ↔ Q (.ok a) s := Iff.rfl

theorem ends_then {x : ExceptT ε (StateM σ) β} {f : β → ExceptT ε (StateM σ) α} :
    Ends (x >>= f).run s Q ↔ Ends x.run s fun r t =>
      match r with
      | .ok b => Ends (f b).run t Q
      | .error e => Q (.error e) t := by
  rw [ExceptT.run_bind, ends_bind]
  unfold Ends
  rcases x.run.run s with ⟨r, t⟩
  cases r <;> exact Iff.rfl

theorem ends_adapt {x : ExceptT ε' (StateM σ) α} {f : ε' → ε} :
    Ends (ExceptT.adapt f x).run s Q ↔ Ends x.run s fun r t => Q (r.mapError f) t := Iff.rfl

theorem ends_liftM {x : StateM σ α} :
    Ends (liftM x : ExceptT ε (StateM σ) α).run s Q ↔ Ends x s fun a t => Q (.ok a) t := Iff.rfl

theorem ends_get_run {Q : Except ε σ → σ → Prop} : Ends (get : ExceptT ε (StateM σ) σ).run s Q ↔ Q (.ok s) s :=
  Iff.rfl

theorem ends_set_run {t : σ} {Q : Except ε PUnit → σ → Prop} :
    Ends (set t : ExceptT ε (StateM σ) PUnit).run s Q ↔ Q (.ok ⟨⟩) t := Iff.rfl

theorem ends_modify_run {f : σ → σ} {Q : Except ε PUnit → σ → Prop} :
    Ends (modify f : ExceptT ε (StateM σ) PUnit).run s Q ↔ Q (.ok ⟨⟩) (f s) := Iff.rfl

/-- What each round keeps, rounds up to the first that fails keep, and the answers are those of the rounds. -/
theorem ends_filterMapM {f : β → ExceptT ε (StateM σ) (Option α)} {I : σ → Prop} {P : β → α → Prop} :
    ∀ {bs : List β} {s : σ},
      (∀ b ∈ bs, ∀ s, I s → Ends (f b).run s fun r t => I t ∧ ∀ a, r = .ok (some a) → P b a) → I s →
        Ends (bs.filterMapM f).run s fun r t => I t ∧ ∀ as, r = .ok as → ∀ a ∈ as, ∃ b ∈ bs, P b a
  | [], _, _, hs => by
    rw [List.filterMapM_nil, ends_ok]
    refine ⟨hs, ?_⟩
    rintro as ⟨⟩ a ha
    cases ha
  | b :: bs, s, hf, hs => by
    rw [List.filterMapM_cons, ends_then]
    refine (hf b (by simp) s hs).mono fun r t ⟨ht, hr⟩ => ?_
    have ih := ends_filterMapM (fun b hb => hf b (List.mem_cons_of_mem _ hb)) ht
    have hrest : ∀ as : List α, (∀ a ∈ as, ∃ b ∈ bs, P b a) → ∀ a ∈ as, ∃ c ∈ b :: bs, P c a := fun as h a ha =>
      (h a ha).imp fun _ ⟨hb, hp⟩ => ⟨List.mem_cons_of_mem _ hb, hp⟩
    cases r with
    | error e => exact ⟨ht, nofun⟩
    | ok found =>
      cases found with
      | none => exact ih.mono fun r u ⟨hu, hr'⟩ => ⟨hu, fun as h => hrest as (hr' as h)⟩
      | some a =>
        simp only [ends_then]
        refine ih.mono fun r u ⟨hu, hr'⟩ => ?_
        cases r with
        | error e => exact ⟨hu, nofun⟩
        | ok as =>
          refine ⟨hu, ?_⟩
          rintro _ ⟨⟩ a' ha'
          rcases List.mem_cons.mp ha' with rfl | ha'
          · exact ⟨b, by simp, hr a' rfl⟩
          · exact hrest as (hr' as rfl) a' ha'

end

end IdlWorkbench
