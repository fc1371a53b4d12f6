import IdlWorkbench.Proofs.Check.Replay
import IdlWorkbench.Proofs.Check.Reports

/-!
# The verdict on a package

What comes after all declarations are resolved: recursive types, map keys and tags. Each looks only at what names
mean by then, so two environments that mirror each other come to the same verdict.
-/

namespace IdlWorkbench.Check

variable {K : Ty → Bool} {env env₁ env₂ : Env} {c c' : Core} {Φ Ψ : Prop}

/-! ## Tests -/

section
variable {α β : Type}

theorem Back.loop {f : α → β → Step (ForInStep β)} : ∀ {as : List α},
    (∀ a ∈ as, ∀ b, Back K (f a b)) → ∀ b : β, Back K (forIn as b f)
  | [], _, b => back_pure b
  | a :: as, hf, b => by
    rw [List.forIn_cons]
    refine (hf a List.mem_cons_self b).bind fun r => ?_
    cases r with
    | done b => exact back_pure b
    | yield b => exact Back.loop (fun a ha => hf a (List.mem_cons_of_mem _ ha)) b

/-- From a clean state with core `c` the step leads to such a state again if `Φ` holds, and else finds something
wrong. -/
structure Tests (K : Ty → Bool) (c : Core) (Φ : Prop) (x : Step α) : Prop where
  back : Back K x
  pass : Φ → ∀ s, s.core = c → s.clean K = true → (x.run s).2.core = c ∧ (x.run s).2.clean K = true
  only : ∀ s, s.core = c → s.clean K = true → (x.run s).2.clean K = true → Φ

theorem tests_pure (a : α) : Tests K c True (pure a : Step α) :=
  ⟨back_pure a, fun _ _ hs hclean => ⟨hs, hclean⟩, fun _ _ _ _ => trivial⟩

theorem Tests.congr {x : Step α} (h : Tests K c Φ x) (hiff : Ψ ↔ Φ) : Tests K c Ψ x :=
  ⟨h.back, fun hp => h.pass (hiff.mp hp), fun s hs hclean hend => hiff.mpr (h.only s hs hclean hend)⟩

theorem Tests.bind {x : Step α} {f : α → Step β} (hx : Tests K c Φ x) (hf : ∀ a, Tests K c Ψ (f a)) :
    Tests K c (Φ ∧ Ψ) (x >>= f) := by
  refine ⟨hx.back.bind fun a => (hf a).back, fun hp s hs hclean => ?_, fun s hs hclean hend => ?_⟩
  · obtain ⟨hs', hclean'⟩ := hx.pass hp.1 s hs hclean
    exact (hf _).pass hp.2 _ hs' hclean'
  · have hmid := (hf _).back _ hend
    have hp := hx.only s hs hclean hmid
    obtain ⟨hs', hclean'⟩ := hx.pass hp s hs hclean
    exact ⟨hp, (hf _).only _ hs' hclean' hend⟩

theorem Tests.then_pure {x : Step α} (hx : Tests K c Φ x) (f : α → β) : Tests K c Φ (x >>= fun a => pure (f a)) :=
  (hx.bind fun a => tests_pure (f a)).congr (by simp)

/-- A loop that never ends early. -/
theorem Tests.loop {Φ : α → Prop} {f : α → β → Step (ForInStep β)}
    (hy : ∀ a b s, ∃ r, ((f a b).run s).1 = .yield r) :
    ∀ {as : List α}, (∀ a ∈ as, ∀ b, Tests K c (Φ a) (f a b)) → ∀ b, Tests K c (∀ a ∈ as, Φ a) (forIn as b f)
  | [], _, b => (tests_pure b).congr (by simp)
  | a :: as, hf, b => by
    have hrun (s : State) : ∃ r, (forIn (a :: as) b f).run s = (forIn as r f).run ((f a b).run s).2 := by
      obtain ⟨r, hr⟩ := hy a b s
      exact ⟨r, by rw [List.forIn_cons, run_bind, hr]⟩
    have ha := hf a List.mem_cons_self b
    have hrest := Tests.loop hy fun a ha => hf a (List.mem_cons_of_mem _ ha)
    refine ⟨Back.loop (fun a ha b => (hf a ha b).back) b, fun hp s hs hclean => ?_, fun s hs hclean hend => ?_⟩
    · obtain ⟨r, hr⟩ := hrun s
      obtain ⟨hpa, hpas⟩ := List.forall_mem_cons.mp hp
      obtain ⟨hs', hclean'⟩ := ha.pass hpa s hs hclean
      rw [hr]
      exact (hrest r).pass hpas _ hs' hclean'
    · obtain ⟨r, hr⟩ := hrun s
      rw [hr] at hend
      have hpa := ha.only s hs hclean ((hrest r).back _ hend)
      obtain ⟨hs', hclean'⟩ := ha.pass hpa s hs hclean
      exact List.forall_mem_cons.mpr ⟨hpa, (hrest r).only _ hs' hclean' hend⟩

theorem Tests.filterMapM {Φ : α → Prop} {f : α → Step (Option β)} (hf : ∀ a, Tests K c (Φ a) (f a)) :
    ∀ as : List α, Tests K c (∀ a ∈ as, Φ a) (as.filterMapM f)
  | [] => (tests_pure []).congr (by simp)
  | a :: as => by
    rw [List.filterMapM_cons]
    refine ((hf a).bind (Ψ := ∀ a ∈ as, Φ a) fun r => ?_).congr List.forall_mem_cons
    cases r with
    | none => exact Tests.filterMapM hf as
    | some b => exact (Tests.filterMapM hf as).then_pure _

end

/-! ## Recursive types -/

def Recurs (env : Env) (types : Table String Ty) (name : String) : Prop :=
  ∃ way, searchWithin env types name (types.length + 1) [] [] name = .found way

theorem searchWithin_congr {types₁ types₂ : Table String Ty} (hpath : env₂.path = env₁.path)
    (htypes : ∀ name, types₂.find? name = types₁.find? name) (target : String) (n : Nat) :
    searchWithin env₂ types₂ target n = searchWithin env₁ types₁ target n := by
  have hparts (name : String) : partNames env₂ types₂ name = partNames env₁ types₁ name := by
    rw [partNames, partNames, htypes, hpath]
  induction n with
  | zero => rfl
  | succ n ih =>
    funext way visited name
    rw [searchWithin, searchWithin, hparts, ih]

theorem recurs_mirrors {types₁ types₂ : Table String Ty} {name : String} (hpath : env₂.path = env₁.path)
    (hn₁ : types₁.keys.Nodup) (hn₂ : types₂.keys.Nodup) (htypes : ∀ name, types₂.find? name = types₁.find? name)
    (h : Recurs env₂ types₂ name) : Recurs env₁ types₁ name := by
  obtain ⟨way, hway⟩ := h
  rw [(Table.perm_of_find? hn₂ hn₁ htypes).length_eq, searchWithin_congr hpath htypes] at hway
  exact ⟨way, hway⟩

def recursiveTurn (env : Env) (e : String × Declared) : Step (ForInStep PUnit) := do
  let s ← get
  if e.2.isType && !s.recursive.contains e.1 then
    match searchWithin env s.types e.1 (s.types.length + 1) [] [] e.1 with
    | .found way =>
      reportRecursive env e.1
      modify fun s => { s with recursive := way ++ s.recursive }
      return .yield ⟨⟩
    | .exhausted _ => return .yield ⟨⟩
  else
    return .yield ⟨⟩

theorem checkRecursive_eq (env : Env) :
    checkRecursive env = forIn env.decls PUnit.unit (fun e _ => recursiveTurn env e) >>= fun _ => pure () := by
  rfl

theorem back_recursiveTurn (env : Env) (e : String × Declared) : Back K (recursiveTurn env e) := by
  unfold recursiveTurn
  refine back_get.bind fun s => ?_
  split
  · split
    · exact (back_reportRecursive env _).bind fun _ => (back_modify fun _ => by rfl).bind fun _ => back_pure _
    · exact back_pure _
  · exact back_pure _

theorem back_checkRecursive (env : Env) : Back K (checkRecursive env) := by
  rw [checkRecursive_eq]
  exact (Back.loop (fun e _ _ => back_recursiveTurn env e) PUnit.unit).bind fun _ => back_pure _

theorem tests_recursiveTurn (hc : c.recursive = []) {e : String × Declared} (he : e ∈ env.decls) :
    Tests K c (e.2.isType = true → ¬ Recurs env c.types e.1) (recursiveTurn env e) := by
  have hempty {s : State} (hs : s.core = c) : s.recursive = [] := (congrArg Core.recursive hs).trans hc
  have hturn {s : State} (hs : s.core = c) (htype : e.2.isType = true) :
  (e.2.isType && !s.recursive.contains e.1) = true := by
    simp [htype, hempty hs]
  refine ⟨back_recursiveTurn env e, fun hp s hs hclean => ?_, fun s hs hclean hend htype hrec => ?_⟩
  · rw [recursiveTurn, run_bind, run_get]
    by_cases htype : e.2.isType = true
    · simp only [hturn hs htype, ite_true]
      cases hsearch : searchWithin env s.types e.1 (s.types.length + 1) [] [] e.1 with
      | found way =>
        subst hs
        exact (hp htype ⟨way, hsearch⟩).elim
      | exhausted _ => exact ⟨hs, hclean⟩
    · simp only [htype, Bool.false_and, Bool.false_eq_true, ite_false]
      exact ⟨hs, hclean⟩
  · obtain ⟨way, hway⟩ := hrec
    obtain ⟨d, hd⟩ := Option.isSome_iff_exists.mp (Table.contains_of_mem_keys (List.mem_map_of_mem he))
    subst hs
    rw [recursiveTurn, run_bind, run_get] at hend
    have hway : searchWithin env s.types e.1 (s.types.length + 1) [] [] e.1 = .found way := hway
    simp only [hturn rfl htype, ite_true, hway] at hend
    have hreport := not_clean_reportRecursive (K := K) hd (hempty rfl)
    cases hreport.symm.trans hend

theorem tests_checkRecursive (hc : c.recursive = []) :
    Tests K c (∀ e ∈ env.decls, e.2.isType = true → ¬ Recurs env c.types e.1) (checkRecursive env) := by
  rw [checkRecursive_eq]
  refine (Tests.loop (fun e b s => ?_) (fun e he b => tests_recursiveTurn hc he) PUnit.unit).then_pure _
  unfold recursiveTurn
  rw [run_bind]
  split
  · split <;> exact ⟨_, rfl⟩
  · exact ⟨_, rfl⟩

/-! ## Map keys -/

theorem comparable_congr {s t : Surface} (hu : ∀ r, t.underlying (.named r) = s.underlying (.named r))
    (hr : t.refs.length = s.refs.length) : t.comparable = s.comparable := by
  have henter (n : Nat) : t.enterWithin n = s.enterWithin n := by
    induction n with
    | zero => rfl
    | succ n ih =>
      funext r seen
      rw [Surface.enterWithin, Surface.enterWithin, ih, hu]
  funext ty
  rw [Surface.comparable, Surface.comparable, henter, hr]

theorem underlying_surface (env : Env) (s : State) (r : NamedRef) : (surface env s).underlying (.named r) =
    if r.package = env.path then (s.types.find? r.name).getD .invalid else env.bare.underlying (.named r) := by
  simp only [Surface.underlying, Surface.underlying?, Surface.find?, Env.bare, surface, Surface.empty,
    Surface.findWithin]
  by_cases h : r.package = env.path
  · simp [h]
  · simp [h, Ne.symm h]

theorem comparable_mirrors (m : Mirrors env₁ env₂)
    (himports : (Surface.refsOf env₂.imports).length = (Surface.refsOf env₁.imports).length) {s t : State}
    (hs : s.types.keys.Nodup) (ht : t.types.keys.Nodup) (htypes : ∀ name, t.types.find? name = s.types.find? name) :
    (surface env₂ t).comparable = (surface env₁ s).comparable := by
  refine comparable_congr (fun r => ?_) ?_
  · rw [underlying_surface, underlying_surface, m.path, htypes]
    by_cases h : r.package = env₁.path
    · rw [if_pos h, if_pos h]
    · rw [if_neg h, if_neg h, m.foreign r h]
  · have hperm := ((Table.perm_of_find? ht hs htypes).flatMap_right fun e : String × Ty => e.2.refs).length_eq
    simp only [surface, Surface.refs, List.length_append, himports]
    exact congrArg (· + _) hperm

def keyTurn (env : Env) (shown : Surface) (key : MapKey) : Step (ForInStep PUnit) := do
  if !shown.comparable key.type then
    complain ⟨key.file, key.space, "", none⟩ key.offset (.badMapKey (env.display key.type))
    return .yield ⟨⟩
  else
    return .yield ⟨⟩

def report (env : Env) (key : MapKey) : CheckError :=
  ⟨key.file, key.space, key.offset, .badMapKey (env.display key.type)⟩

theorem run_keyTurns (env : Env) (shown : Surface) : ∀ (keys : List MapKey) (s : State),
    ((forIn keys PUnit.unit fun key _ => keyTurn env shown key).run s).2 = { s with
      errors := ((keys.filter fun key => !shown.comparable key.type).map (report env)).reverse ++ s.errors }
  | [], _ => rfl
  | key :: keys, s => by
    rw [List.forIn_cons, run_bind]
    by_cases h : shown.comparable key.type = true
    · have hturn : (keyTurn env shown key).run s = (.yield ⟨⟩, s) := by
        rw [keyTurn, if_neg (by simp [h])]
        rfl
      rw [hturn]
      refine (run_keyTurns env shown keys s).trans ?_
      simp [h]
    · have hturn : (keyTurn env shown key).run s = (.yield ⟨⟩, { s with errors := report env key :: s.errors }) := by
        rw [keyTurn, if_pos (by simp [h])]
        rfl
      rw [hturn]
      refine (run_keyTurns env shown keys _).trans ?_
      simp [h]

/-- The keys put aside are judged, in the order in which they came, and are gone then. -/
theorem run_checkKeys_eq (env : Env) (s : State) : ((checkKeys env).run s).2 = { s with
    keys := []
    errors := ((s.keys.filter fun key => !(surface env s).comparable key.type).map (report env)).reverse ++
      s.errors } :=
  run_keyTurns env (surface env s) s.keys { s with keys := [] }

theorem run_checkKeys (env : Env) (s : State) :
    ((checkKeys env).run s).2.core = s.core ∧ ((checkKeys env).run s).2.keys = [] ∧
      (((checkKeys env).run s).2.errors = [] ↔ s.clean (surface env s).comparable = true) := by
  rw [run_checkKeys_eq, clean_iff]
  refine ⟨rfl, rfl, ?_⟩
  simp [and_comm]

/-! ## Tags -/

/-- The tag can be checked with the meanings that names have in `c`. -/
def TagHolds (K : Ty → Bool) (env : Env) (c : Core) (file : Nat) (tag : Tag) : Prop :=
  (tag.parse.ok && !tag.expr.isMissing) = true →
    ((checkExpr env (resolveConst env) ⟨file, .tag tag, tag.source.text, none⟩ tag.expr).run c.state).2.clean
      K = true

def tagTurns (env : Env) : Step (Table (Nat × ByteRange) (List CheckedTag)) :=
  forIn env.sources.zipIdx ([] : Table (Nat × ByteRange) (List CheckedTag)) fun (s, file) table => do
    let table ← forIn s.tree.tags table fun (owner, tags) table => do
      let checked ← tags.filterMapM (checkTag env file)
      if !checked.isEmpty then
        return .yield (table.insert (file, owner) checked)
      else
        return .yield table
    return .yield table

theorem Frozen.checkExpr (h : Frozen env₁ c) (m : Mirrors env₁ env₂) (hsub : c.Sub c') {site₁ site₂ : Site}
    (hs : SameScope env₁ env₂ site₁ site₂) (e : Expr) :
    Follows K (fun s t => s = c ∧ t = c') True env₁.KnownValue (checkExpr env₁ (resolveConst env₁) site₁ e)
      (checkExpr env₂ (resolveConst env₂) site₂ e) := by
  have hasks : Asks K (fun s t => s = c ∧ t = c') env₁ env₂ env₁.fuel env₂.fuel := h.follows m hsub.finds
  exact follows_checkExpr (hasks.resolves m) (hasks.consts m) hs e

theorem tagHolds_mirrors (h : Frozen env₁ c) (m : Mirrors env₁ env₂) (hsub : c.Sub c') {i j : Nat}
    (hfile : ∀ name, env₂.lookup j name = env₁.lookup i name) {tag : Tag} (ht : TagHolds K env₁ c i tag) :
    TagHolds K env₂ c' j tag := by
  intro hok
  have hscope : SameScope env₁ env₂ ⟨i, .tag tag, tag.source.text, none⟩ ⟨j, .tag tag, tag.source.text, none⟩ :=
    ⟨hfile, rfl, m.tame i⟩
  exact ((h.checkExpr m hsub hscope tag.expr).ahead trivial c.state c'.state ⟨rfl, rfl⟩ (ht hok)
    (clean_state c')).2.2.2

theorem tests_checkTag (h : Frozen env c) (m : Mirrors env env) (file : Nat) (tag : Tag) :
    Tests K c (TagHolds K env c file tag) (checkTag env file tag) := by
  have hscope : SameScope env env ⟨file, .tag tag, tag.source.text, none⟩ ⟨file, .tag tag, tag.source.text, none⟩ :=
    ⟨fun _ => rfl, rfl, m.tame file⟩
  have hfollows := h.checkExpr (K := K) m (Core.Sub.refl c) hscope tag.expr
  unfold checkTag
  by_cases hok : (tag.parse.ok && !tag.expr.isMissing) = true
  · rw [if_pos hok]
    refine ⟨fun s hs => hfollows.back { s with table := [] } hs, fun hp s hs hclean => ?_,
      fun s hs hclean hend _ => ?_⟩
    · obtain ⟨-, -, ⟨-, hcore⟩, hclean'⟩ :=
        hfollows.ahead trivial c.state { s with table := [] } ⟨rfl, hs⟩ (hp hok) hclean
      exact ⟨hcore, hclean'⟩
    · exact (hfollows.ahead trivial { s with table := [] } c.state ⟨hs, rfl⟩ hend (clean_state c)).2.2.2
  · rw [if_neg hok]
    exact (tests_pure none).congr (iff_true_intro fun hok' => (hok hok').elim)

theorem tests_tagTurns (h : Frozen env c) (m : Mirrors env env) :
    Tests K c (∀ s ∈ env.sources.zipIdx, ∀ entry ∈ s.1.tree.tags, ∀ tag ∈ entry.2,
      TagHolds K env c s.2 tag) (tagTurns env) := by
  refine Tests.loop (fun _ _ _ => ⟨_, rfl⟩) (fun s _ table => Tests.then_pure ?_ _) _
  refine Tests.loop (fun entry table t => ?_) (fun entry _ table => ?_) table
  · dsimp only
    rw [run_bind]
    split <;> exact ⟨_, rfl⟩
  · have hchecked := Tests.filterMapM (K := K) (fun tag => tests_checkTag h m s.2 tag) entry.2
    refine (hchecked.bind (Ψ := True) fun checked => ?_).congr (by simp)
    split <;> exact tests_pure _

/-! ## Everything after the declarations are collected -/

theorem surface_congr {s t : State} (h : s.core = t.core) : surface env s = surface env t := by
  rw [surface, surface, show s.types = t.types from congrArg Core.types h,
    show s.consts = t.consts from congrArg Core.consts h]

/-- Nothing is wrong with a package whose declarations lead to the state `r`. -/
structure Passes (env : Env) (r : State) : Prop where
  clean : r.clean (surface env r).comparable = true
  finite : ∀ e ∈ env.decls, e.2.isType = true → ¬ Recurs env r.types e.1
  tags : ∀ f ∈ env.sources.zipIdx, ∀ entry ∈ f.1.tree.tags, ∀ tag ∈ entry.2,
    TagHolds (surface env r).comparable env r.core f.2 tag

theorem frozen_resolveAll (m : Mirrors env env) (hn : env.decls.keys.Nodup) {s : State}
    (hs : s.core = ⟨[], [], [], []⟩)
    (h : ((resolveAll env).run s).2.clean K = true) :
    Frozen env ((resolveAll env).run s).2.core ∧ Complete env ((resolveAll env).run s).2.core := by
  obtain ⟨-, hfrozen, hcomplete, -⟩ := resolveAll_mirrors m hn hn hs (core_state _) (clean_state _) h
  exact ⟨hfrozen, hcomplete⟩

theorem run_body (env : Env) (s : State) : ((body env).run s).2 =
    let r := ((checkKeys env).run ((checkRecursive env).run ((resolveAll env).run s).2).2).2
    if r.errors.isEmpty then ((checkKeys env).run ((tagTurns env).run r).2).2 else r := by
  unfold body
  rw [run_bind, run_bind, run_bind, run_bind, run_get]
  generalize ((checkKeys env).run ((checkRecursive env).run ((resolveAll env).run s).2).2).2 = r
  by_cases h : r.errors.isEmpty = true
  · simp only [h, ite_true]
    rfl
  · simp only [h, Bool.false_eq_true, ite_false]
    rfl

theorem clean_of_empty {s : State} (he : s.errors = []) (hk : s.keys = []) : s.clean K = true :=
  clean_iff.mpr ⟨he, fun _ h => by rw [hk] at h; cases h⟩

theorem passes_of_body (m : Mirrors env env) (hn : env.decls.keys.Nodup) {s : State} (hs : s.core = ⟨[], [], [], []⟩)
    (h : ((body env).run s).2.errors = []) :
    Passes env ((resolveAll env).run s).2 ∧ ((body env).run s).2.core = ((resolveAll env).run s).2.core := by
  have hresolved (K : Ty → Bool) := frozen_resolveAll (K := K) m hn hs
  rw [run_body] at h ⊢
  generalize ((resolveAll env).run s).2 = r at *
  obtain ⟨hcore₃, hkeys₃, hclean₂⟩ := run_checkKeys env ((checkRecursive env).run r).2
  dsimp only at h ⊢
  by_cases hempty : ((checkKeys env).run ((checkRecursive env).run r).2).2.errors.isEmpty = true
  · rw [if_pos hempty] at h ⊢
    have herrors₃ := List.isEmpty_iff.mp hempty
    have hclean₂ := hclean₂.mp herrors₃
    -- keys put aside are looked at behind the search for recursive types, which leaves them alone
    have hclean := back_checkRecursive env r hclean₂
    obtain ⟨hfrozen, hcomplete⟩ := hresolved _ hclean
    have hfinite := (tests_checkRecursive hcomplete.recursive).only r rfl hclean hclean₂
    have hcore₂ := ((tests_checkRecursive hcomplete.recursive).pass hfinite r rfl hclean).1
    rw [surface_congr hcore₂] at hclean
    obtain ⟨hcore₄, -, hclean₄⟩ :=
      run_checkKeys env ((tagTurns env).run ((checkKeys env).run ((checkRecursive env).run r).2).2).2
    have hclean₄ := hclean₄.mp h
    have hcore₃ := hcore₃.trans hcore₂
    -- the keys of tags are held against the surface behind the tags, which turns out to be the same
    have htags := (tests_tagTurns hfrozen m).only _ hcore₃ (clean_of_empty herrors₃ hkeys₃) hclean₄
    have hcore := ((tests_tagTurns hfrozen m).pass htags _ hcore₃ (clean_of_empty herrors₃ hkeys₃)).1
    rw [surface_congr hcore] at htags
    exact ⟨⟨hclean, hfinite, htags⟩, hcore₄.trans hcore⟩
  · rw [if_neg hempty] at h
    exact (hempty (List.isEmpty_iff.mpr h)).elim

theorem body_of_passes (m : Mirrors env env) (hn : env.decls.keys.Nodup) {s : State} (hs : s.core = ⟨[], [], [], []⟩)
    (h : Passes env ((resolveAll env).run s).2) :
    ((body env).run s).2.errors = [] ∧ ((body env).run s).2.core = ((resolveAll env).run s).2.core := by
  obtain ⟨hfrozen, hcomplete⟩ := frozen_resolveAll m hn hs h.clean
  rw [run_body]
  generalize ((resolveAll env).run s).2 = r at *
  obtain ⟨hcore₂, hclean₂⟩ := (tests_checkRecursive hcomplete.recursive).pass h.finite r rfl h.clean
  obtain ⟨hcore₃, hkeys₃, herrors₃⟩ := run_checkKeys env ((checkRecursive env).run r).2
  rw [surface_congr hcore₂] at herrors₃
  have herrors₃ := herrors₃.mpr hclean₂
  obtain ⟨hcore, hclean⟩ :=
    (tests_tagTurns hfrozen m).pass h.tags _ (hcore₃.trans hcore₂) (clean_of_empty herrors₃ hkeys₃)
  obtain ⟨hcore₄, -, herrors₄⟩ :=
    run_checkKeys env ((tagTurns env).run ((checkKeys env).run ((checkRecursive env).run r).2).2).2
  rw [surface_congr hcore] at herrors₄
  dsimp only
  rw [if_pos (List.isEmpty_iff.mpr herrors₃)]
  exact ⟨herrors₄.mpr hclean, hcore₄.trans hcore⟩

/-- Environments that mirror each other: if nothing is wrong in the one, then neither is in the other, and names
mean the same. -/
theorem body_mirrors (m : Mirrors env₁ env₂) (m' : Mirrors env₂ env₁) (hn₁ : env₁.decls.keys.Nodup)
    (hn₂ : env₂.decls.keys.Nodup)
    (himports : (Surface.refsOf env₂.imports).length = (Surface.refsOf env₁.imports).length)
    (hfiles : ∀ f ∈ env₂.sources.zipIdx, ∃ i, (f.1, i) ∈ env₁.sources.zipIdx ∧
      ∀ name, env₂.lookup f.2 name = env₁.lookup i name)
    {s t : State} (hs : s.core = ⟨[], [], [], []⟩) (ht : t.core = ⟨[], [], [], []⟩) (hkeys : t.keys = [])
    (herrors : t.errors = []) (h : ((body env₁).run s).2.errors = []) :
    ((body env₂).run t).2.errors = [] ∧ ∀ name,
      ((body env₂).run t).2.types.find? name = ((body env₁).run s).2.types.find? name ∧
      ((body env₂).run t).2.consts.find? name = ((body env₁).run s).2.consts.find? name := by
  obtain ⟨hpass, hcore⟩ := passes_of_body m.self hn₁ hs h
  obtain ⟨hclean, hfrozen, hcomplete₁, hcomplete₂, hsame⟩ :=
    resolveAll_mirrors m hn₁ hn₂ hs ht (clean_of_empty herrors hkeys) hpass.clean
  have hcomparable := comparable_mirrors m himports hcomplete₁.types hcomplete₂.types fun name => (hsame name).1
  have hsub : ((resolveAll env₁).run s).2.core.Sub ((resolveAll env₂).run t).2.core := by
    intro name hf
    obtain ⟨d, hd⟩ := hcomplete₁.declared name hf
    obtain ⟨file, hd₂, -⟩ := m.declared name d hd
    exact ⟨hcomplete₂.finished name _ hd₂, hsame name⟩
  have hpass₂ : Passes env₂ ((resolveAll env₂).run t).2 := by
    refine ⟨?_, fun e he htype => ?_, fun f hf entry hentry tag htag => ?_⟩
    · rw [hcomparable]
      exact hclean
    · obtain ⟨d, file, hd, hinFile⟩ := m.exists_declared (Table.find?_of_mem hn₂ he)
      have htype₁ : d.isType = true := by
        rw [hinFile] at htype
        cases d <;> exact htype
      intro hrecurs
      refine hpass.finite (e.1, d) (Table.mem_of_find? hd) htype₁ ?_
      exact recurs_mirrors m.path hcomplete₁.types hcomplete₂.types (fun name => (hsame name).1) hrecurs
    · obtain ⟨i, hi, hlookup⟩ := hfiles f hf
      rw [hcomparable]
      exact tagHolds_mirrors hfrozen m hsub hlookup (hpass.tags _ hi entry hentry tag htag)
  obtain ⟨herrors₂, hcore₂⟩ := body_of_passes m'.self hn₂ ht hpass₂
  refine ⟨herrors₂, fun name => ?_⟩
  have htypes : ((body env₁).run s).2.types = ((resolveAll env₁).run s).2.types := congrArg Core.types hcore
  have hconsts : ((body env₁).run s).2.consts = ((resolveAll env₁).run s).2.consts := congrArg Core.consts hcore
  have htypes₂ : ((body env₂).run t).2.types = ((resolveAll env₂).run t).2.types := congrArg Core.types hcore₂
  have hconsts₂ : ((body env₂).run t).2.consts = ((resolveAll env₂).run t).2.consts := congrArg Core.consts hcore₂
  rw [htypes, hconsts, htypes₂, hconsts₂]
  exact hsame name

end IdlWorkbench.Check
