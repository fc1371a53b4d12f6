import IdlWorkbench.Proofs.Check.Backed
import IdlWorkbench.Proofs.Check.Order

/-!
# Surfaces are closed

Every declared type that a surface mentions can be looked into from there. A type that is declared as one of
an imported package takes over what underlies it, and with it types of packages that this one does not import
itself. Those are found through the import, whose surface must be closed in turn and not too deep: what it
finds with all hops must be found with one hop less.
-/

namespace IdlWorkbench

namespace Surface

mutual

/-- How many imports follow on each other below a surface. -/
def depth : Surface → Nat
  | ⟨_, _, _, _, imports⟩ => depthOf imports

def depthOf : List (String × Surface) → Nat
  | [] => 0
  | (_, s) :: rest => max (s.depth + 1) (depthOf rest)

end

/-- Every declared type that the types and constants of a surface mention can be looked into. -/
structure Closed (s : Surface) : Prop where
  types : ∀ e ∈ s.types, ∀ r ∈ e.2.refs, (s.underlying? r).isSome = true
  consts : ∀ e ∈ s.consts, ∀ r ∈ e.2.type.refs, (s.underlying? r).isSome = true

end Surface

namespace Check

/-! ## Looking deep enough -/

theorem depth_lt_depthOf : ∀ {imports : List (String × Surface)} {e : String × Surface},
    e ∈ imports → e.2.depth < Surface.depthOf imports
  | (_, s) :: rest, e, h => by
    rw [Surface.depthOf]
    rcases List.mem_cons.mp h with rfl | h
    · exact Nat.lt_of_succ_le (Nat.le_max_left _ _)
    · exact Nat.lt_of_lt_of_le (depth_lt_depthOf h) (Nat.le_max_right _ _)

theorem depth_lt_of_mem {s : Surface} {e : String × Surface} (h : e ∈ s.imports) : e.2.depth < s.depth := by
  obtain ⟨_, _, _, _, imports⟩ := s
  exact depth_lt_depthOf h

/-- A hop beyond the depth of a surface finds nothing new. -/
theorem isSome_findWithin {path : String} : ∀ {hops : Nat} {s : Surface},
    s.depth ≤ hops → (s.findWithin path (hops + 1)).isSome = true → (s.findWithin path hops).isSome = true := by
  intro hops
  induction hops with
  | zero =>
    intro s hd h
    by_cases hown : s.path = path
    · rw [findWithin_own hown]
      rfl
    · have hnone : s.imports = [] := by
        apply List.eq_nil_iff_forall_not_mem.mpr
        intro e he
        have := depth_lt_of_mem he
        omega
      rw [findWithin_succ hown, hnone] at h
      cases h
  | succ hops ih =>
    intro s hd h
    by_cases hown : s.path = path
    · rw [findWithin_own hown]
      rfl
    · rw [findWithin_succ hown] at h ⊢
      simp only [Option.isSome_or, Bool.or_eq_true, List.findSome?_isSome_iff] at h ⊢
      refine h.imp_right ?_
      rintro ⟨e, he, hfound⟩
      have hlt := depth_lt_of_mem he
      exact ⟨e, he, ih (by omega) hfound⟩

/-! ## What the imports bring -/

section
variable {f : String → Imported} {sources : List Source} {path name : String}

theorem find?_imported_of_given (hc : Coherent f sources) {p : String} {s : Surface} (hp : p ∈ importPaths sources)
    (hs : f p = .ok s) : (importedSurfaces (importsBy f sources)).find? s.path = some s := by
  have hkey : s.path ∈ (importedSurfaces (importsBy f sources)).keys := by
    rw [importedSurfaces, mem_keys_foldl_surfaces]
    exact Or.inr ⟨s, mem_imported.mpr ⟨p, hp, hs⟩, rfl⟩
  obtain ⟨t, ht⟩ := Table.mem_keys_iff.mp hkey
  rw [ht, hc _ t s (reached_of_imported ht) (.given hp hs)]

/-- What an imported package can look into, the package that imports it can look into as well. -/
theorem underlying?_of_given (hc : Coherent f sources) {p : String} {s : Surface} (hp : p ∈ importPaths sources)
    (hs : f p = .ok s) (hdepth : s.depth < 64) {r : NamedRef} {u : Ty} (hr : r.package ≠ path)
    (hu : s.underlying? r = some u) : (environment f path name sources).bare.underlying? r = some u := by
  obtain ⟨owner, howner, hu⟩ := Option.bind_eq_some_iff.mp hu
  have hreached : Reached f sources r.package owner := reached_findWithin (.given hp hs) howner
  have hown : (environment f path name sources).bare.path ≠ r.package := hr.symm
  have hfound : ((environment f path name sources).bare.find? r.package).isSome = true := by
    rw [Surface.find?, Surface.maxHops, findWithin_succ hown, Option.isSome_or, Bool.or_eq_true]
    right
    rw [List.findSome?_isSome_iff]
    refine ⟨_, Table.mem_of_find? (find?_imported_of_given hc hp hs), isSome_findWithin (Nat.le_of_lt hdepth) ?_⟩
    have howner : s.findWithin r.package 65 = some owner := howner
    rw [howner]
    rfl
  obtain ⟨owner', howner'⟩ := Option.isSome_iff_exists.mp hfound
  rw [Surface.underlying?, howner', hc _ owner' owner (reached_find? rfl hown howner') hreached]
  exact hu

theorem given_fileImports {s : Source} (hs : s ∈ sources) (file : Nat) :
    (fileImports (importsBy f sources) file s).All fun t => ∃ p ∈ importPaths sources, f p = .ok t := by
  refine all_foldl ⟨fun _ _ h => (nomatch h), fun _ h => (nomatch h)⟩ fun i hi t ht => ?_
  rw [find?_importOf hs hi] at ht
  exact ⟨i.2.1, mem_importPaths.mpr ⟨s, hs, i, hi, rfl⟩, ht⟩

/-- Where the meaning of a name comes from: from the package, from one that it imports, or from nowhere. -/
theorem lookup_given {file : Nat} {other : String} {b : Binding}
    (h : (environment f path name sources).lookup file other = some b) :
    b = .localType ∨ b = .localConst ∨ b = .package none ∨ Env.predeclared? other = some b ∨
      ∃ p ∈ importPaths sources, ∃ s, f p = .ok s ∧ (b = .package (some s) ∨
        s.types.contains other = true ∧ b = .type (.named (s.ref other)) ∨
          ∃ d, s.consts.find? other = some d ∧ b = .const d) := by
  rw [Env.lookup] at h
  split at h
  · cases h
    split
    · exact Or.inl rfl
    · exact Or.inr (Or.inl rfl)
  · split at h
    · rename_i p hp
      cases h
      cases p with
      | none => exact Or.inr (Or.inr (Or.inl rfl))
      | some s =>
        rw [scopes_environment] at hp
        obtain ⟨scope, hscope, hfind⟩ := Option.bind_eq_some_iff.mp hp
        obtain ⟨source, hsource, rfl⟩ := Option.map_eq_some_iff.mp hscope
        obtain ⟨p, hp, hs⟩ := (given_fileImports (List.mem_of_getElem? hsource) file).scope other s hfind
        exact Or.inr (Or.inr (Or.inr (Or.inr ⟨p, hp, s, hs, Or.inl rfl⟩)))
    · rw [Option.orElse_eq_orElse, Option.orElse_eq_or] at h
      rcases Option.or_eq_some_iff.mp h with h | ⟨-, h⟩
      · rw [Env.dotBinding?] at h
        split at h
        · obtain ⟨s, hmem, hb⟩ := List.exists_of_findSome?_eq_some h
          obtain ⟨p, hp, hs⟩ : ∃ p ∈ importPaths sources, f p = .ok s := by
            rw [dots_environment] at hmem
            cases hsource : sources[file]? with
            | none =>
              rw [hsource] at hmem
              cases hmem
            | some source =>
              rw [hsource] at hmem
              exact (given_fileImports (List.mem_of_getElem? hsource) file).dots s hmem
          refine Or.inr (Or.inr (Or.inr (Or.inr ⟨p, hp, s, hs, Or.inr ?_⟩)))
          split at hb
          · rename_i htype
            cases hb
            exact Or.inl ⟨htype, rfl⟩
          · obtain ⟨d, hd, rfl⟩ := Option.map_eq_some_iff.mp hb
            exact Or.inr ⟨d, hd, rfl⟩
        · cases h
      · exact Or.inr (Or.inr (Or.inr (Or.inl h)))

variable (hc : Coherent f sources)
  (hs : ∀ p ∈ importPaths sources, ∀ s, f p = .ok s → Foreign path s ∧ s.Closed ∧ s.depth < 64)
include hc hs

/-- Types of an imported package, and what it mentions, can be written down. -/
theorem safe_package {s : Surface} (hgiven : ∃ p ∈ importPaths sources, f p = .ok s) :
    Binding.Safe (environment f path name sources) (.package (some s)) := by
  obtain ⟨p, hp, hf⟩ := hgiven
  obtain ⟨hforeign, hclosed, hdepth⟩ := hs p hp s hf
  have hmention {r : NamedRef} (hne : r.package ≠ path) (hsome : (s.underlying? r).isSome = true) :
      (environment f path name sources).Resolves r := by
    obtain ⟨u, hu⟩ := Option.isSome_iff_exists.mp hsome
    have helsewhere : r.package ≠ (environment f path name sources).path := hne
    rw [Env.Resolves, if_neg helsewhere, underlying?_of_given hc hp hf hdepth hne hu]
    rfl
  refine ⟨fun other hother => ?_, fun other d hd r hr => ?_⟩
  · obtain ⟨u, hu⟩ := Option.isSome_iff_exists.mp hother
    have hown : s.underlying? (s.ref other) = some u := by
      have hfind : s.find? (s.ref other).package = some s := findWithin_own rfl
      rw [Surface.underlying?, hfind]
      exact hu
    have hbare : (environment f path name sources).bare.underlying? (s.ref other) = some u :=
      underlying?_of_given hc hp hf hdepth hforeign.elsewhere hown
    constructor
    · intro r hr
      rw [Ty.refs, List.mem_singleton] at hr
      subst hr
      exact hmention hforeign.elsewhere (by rw [hown]; rfl)
    · rintro _ ⟨⟩ - r hr
      rw [Surface.underlying, hbare] at hr
      have hmem := Table.mem_of_find? hu
      exact hmention (hforeign.types _ hmem r hr) (hclosed.types _ hmem r hr)
  · have hmem := Table.mem_of_find? hd
    exact hmention (hforeign.consts _ hmem r hr) (hclosed.consts _ hmem r hr)

theorem safe_environment : (environment f path name sources).Safe := by
  intro file other b h
  rcases lookup_given h with rfl | rfl | rfl | h | ⟨p, hp, s, hf, hb⟩
  · trivial
  · trivial
  · trivial
  · obtain ⟨p, hp, rfl⟩ := Option.map_eq_some_iff.mp h
    rcases refs_predeclared hp with ⟨t, rfl, ht⟩ | ⟨d, rfl, hd⟩ | rfl
    · refine ⟨by simp [ht], ?_⟩
      rintro r rfl
      cases ht
    · simp [Binding.Safe, hd]
    · trivial
  · have hsafe : Binding.Safe (environment f path name sources) (.package (some s)) := safe_package hc hs ⟨p, hp, hf⟩
    rcases hb with rfl | ⟨htype, rfl⟩ | ⟨d, hd, rfl⟩
    · exact hsafe
    · exact hsafe.1 other htype
    · exact hsafe.2 other d hd

end

/-! ## The surface of a checked package -/

theorem closed_surface {env : Env} {waiting : String → Prop} {s : State} (h : Backed env waiting env.IsTypeName s) :
    (surface env s).Closed := by
  have hresolves {r : NamedRef} (hr : env.Resolves r) : ((surface env s).underlying? r).isSome = true := by
    by_cases hown : r.package = env.path
    · rw [Env.Resolves, if_pos hown] at hr
      have hfind : (surface env s).find? r.package = some (surface env s) := findWithin_own hown.symm
      rw [Surface.underlying?, hfind]
      exact h.kept _ hr
    · have hsame : (surface env s).find? r.package = env.bare.find? r.package := by
        have hs : (surface env s).path ≠ r.package := fun he => hown he.symm
        have hb : env.bare.path ≠ r.package := fun he => hown he.symm
        rw [Surface.find?, Surface.find?, Surface.maxHops, findWithin_succ hs, findWithin_succ hb]
        rfl
      rw [Env.Resolves, if_neg hown] at hr
      rw [Surface.underlying?, hsame]
      exact hr
  exact ⟨fun e he r hr => hresolves (h.types e he r hr), fun e he r hr => hresolves (h.consts e he r hr)⟩

/-- A checked package shows a closed surface, whatever is wrong with its files, if the packages that it imports do
and know nothing of it. -/
theorem closed_check {sources : List Source} (f : String → Imported) (path name : String) (hc : Coherent f sources)
    (hs : ∀ p ∈ importPaths sources, ∀ s, f p = .ok s → Foreign path s ∧ s.Closed ∧ s.depth < 64) :
    (check path name sources (importsBy f sources)).surface.Closed := by
  have hstart : Backed (environment f path name sources) (fun _ => False) (fun _ => False) (start f sources) :=
    ⟨nofun, nofun, fun _ => ⟨nofun, nofun⟩, nofun, nofun⟩
  exact closed_surface (hstart.ends_body (safe_environment hc hs))

def nestedSurface : Surface :=
  ⟨"q", "q", [("T", .slice (.named ⟨"r", "r", "Base"⟩))], [], [("r", ⟨"r", "r", [("Base", .basic .int)], [], []⟩)]⟩

def nestedImporter (path : String) : Imported := if path = "q" then .ok nestedSurface else .error "not found"

/-- A file that takes over a type without importing what it is made of, and has an error. -/
def nestedFiles : List Source := [.ofText "package p\n\nimport \"q\"\n\ntype A q.T\n\ntype B []Missing\n"]

theorem reached_nestedImporter {key : String} {s : Surface} {sources : List Source}
    (h : Reached nestedImporter sources key s) :
    key = "q" ∧ s = nestedSurface ∨ key = "r" ∧ s = ⟨"r", "r", [("Base", .basic .int)], [], []⟩ := by
  induction h with
  | given _ hs =>
    rw [nestedImporter] at hs
    split at hs
    · cases hs
      exact Or.inl ⟨rfl, rfl⟩
    · cases hs
  | listed _ hs ih =>
    rcases ih with ⟨-, rfl⟩ | ⟨-, rfl⟩
    · cases List.mem_singleton.mp hs
      exact Or.inr ⟨rfl, rfl⟩
    · cases hs
  | own _ ih =>
    rcases ih with ⟨-, rfl⟩ | ⟨-, rfl⟩
    · exact Or.inl ⟨rfl, rfl⟩
    · exact Or.inr ⟨rfl, rfl⟩

theorem closed_check_sample :
    (check "p" "p" nestedFiles (importsBy nestedImporter nestedFiles)).errors.length = 1 ∧
      (∃ e ∈ (check "p" "p" nestedFiles (importsBy nestedImporter nestedFiles)).surface.types,
        ⟨"r", "r", "Base"⟩ ∈ e.2.refs) ∧
      (check "p" "p" nestedFiles (importsBy nestedImporter nestedFiles)).surface.Closed := by
  refine ⟨by decide +kernel, by decide +kernel, closed_check nestedImporter "p" "p" ?_ ?_⟩
  · intro key s t hs ht
    rcases reached_nestedImporter hs with ⟨rfl, rfl⟩ | ⟨rfl, rfl⟩
    · rcases reached_nestedImporter ht with ⟨-, rfl⟩ | ⟨hkey, -⟩
      · rfl
      · exact absurd hkey (by decide)
    · rcases reached_nestedImporter ht with ⟨hkey, -⟩ | ⟨-, rfl⟩
      · exact absurd hkey (by decide)
      · rfl
  · intro p _ s hs
    rw [nestedImporter] at hs
    split at hs
    · cases hs
      exact ⟨⟨by decide, by decide, by decide⟩, ⟨by decide, by decide⟩, by decide⟩
    · cases hs

end Check

end IdlWorkbench
