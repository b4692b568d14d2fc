import GenericUri.Builder

/-!
# BuilderRun — a run of a builder means its last settings

A run is a row of steps, each of them one that the stage before it can take.  What each step sets is read off the step
alone (`Step.authority?` and so on), and `Run.last` finds what was set last.  `Run.build_eq_ofParts_last` says that the
URI at the end of a run is the one of these settings, so that it does not matter when query and fragment were set.

A builder has room for a path that cannot follow its authority, and `hier` would leave such a path out.  No run comes
there: `Builder.Sound` is what the stage tells of authority and path, and each step preserves it.
-/

namespace GenericUri

variable {stage next : Stage}

/-! ### Runs and settings -/

/-- Steps in a row, from the builder of a scheme on.  The first steps of a run are a run. -/
inductive Run : Stage → Type
  | start : Run .scheme
  | concat {stage next : Stage} (r : Run stage) (s : Step stage next) : Run next

namespace Step

/-- The authority that a step sets. -/
def authority? : Step stage next → Option Authority
  | .authority a => some a
  | _ => none

/-- The path that a step sets. -/
def path? : Step stage next → Option Path
  | .path p => some p
  | .absolutePath p => some (.absolute p)
  | _ => none

/-- What a step makes of the query, which it may set or clear. -/
def query? : Step stage next → Option (Option Query)
  | .query q => some q
  | _ => none

/-- What a step makes of the fragment, which it may set or clear. -/
def fragment? : Step stage next → Option (Option Fragment)
  | .fragment f => some f
  | _ => none

end Step

namespace Run

/-- What the steps of a run set last. -/
def last {α : Type} (setting : {stage next : Stage} → Step stage next → Option α) : {stage : Stage} → Run stage → Option α
  | _, start => none
  | _, concat r s => (setting s).or (r.last setting)

/-- The builder at the end of a run. -/
def builder (s : Scheme) : {stage : Stage} → Run stage → Builder stage
  | _, start => .ofScheme s
  | _, concat r step => (r.builder s).step step

end Run

/-! ### What a step does -/

namespace Builder

variable {b : Builder stage}

/-- What the stage tells of authority and path, and that they fit together. -/
structure Sound (b : Builder stage) : Prop where
  authority : stage = .scheme → b.authority = none
  path : stage ≠ .path → b.path = .empty
  fits : b.authority ≠ none → b.path = .empty ∨ ∃ p, b.path = .absolute p

theorem sound_ofScheme (s : Scheme) : (ofScheme s).Sound :=
  ⟨fun _ => rfl, fun _ => rfl, fun h => absurd rfl h⟩

theorem Sound.step (h : b.Sound) (s : Step stage next) : (b.step s).Sound := by
  cases s with
  | authority a =>
    have hp : b.path = .empty := h.path nofun
    exact ⟨nofun, fun _ => hp, fun _ => .inl hp⟩
  | path p => exact ⟨nofun, fun hs => absurd rfl hs, fun ha => absurd rfl ha⟩
  | absolutePath p => exact ⟨nofun, fun hs => absurd rfl hs, fun _ => .inr ⟨p, rfl⟩⟩
  | query q => exact ⟨h.authority, h.path, h.fits⟩
  | fragment f => exact ⟨h.authority, h.path, h.fits⟩

@[simp] theorem scheme_step (b : Builder stage) (s : Step stage next) : (b.step s).scheme = b.scheme := by
  cases s <;> rfl

/-- The step to a path alone takes an authority away, but none was set before it. -/
theorem Sound.authority_step (h : b.Sound) (s : Step stage next) :
    (b.step s).authority = s.authority?.or b.authority := by
  cases s with
  | path p => exact (h.authority rfl).symm
  | authority a => rfl
  | absolutePath p => rfl
  | query q => rfl
  | fragment f => rfl

theorem path_step (b : Builder stage) (s : Step stage next) : (b.step s).path = s.path?.getD b.path := by
  cases s <;> rfl

theorem query_step (b : Builder stage) (s : Step stage next) : (b.step s).query = s.query?.getD b.query := by
  cases s <;> rfl

theorem fragment_step (b : Builder stage) (s : Step stage next) :
    (b.step s).fragment = s.fragment?.getD b.fragment := by
  cases s <;> rfl

@[simp] theorem authority?_hier (b : Builder stage) : b.hier.authority? = b.authority := by
  obtain ⟨scheme, authority, path, query, fragment⟩ := b
  cases authority with
  | none => rfl
  | some a => cases path <;> rfl

/-- No path is left out where authority and path fit together. -/
theorem Sound.path_hier (h : b.Sound) : b.hier.path = b.path := by
  obtain ⟨scheme, authority, path, query, fragment⟩ := b
  cases authority with
  | none => rfl
  | some a =>
    have hfits : path = .empty ∨ ∃ p, path = .absolute p := h.fits nofun
    rcases hfits with rfl | ⟨p, rfl⟩
    · rfl
    · rfl

end Builder

/-! ### What a run does -/

namespace Run

theorem sound_builder (s : Scheme) (r : Run stage) : (r.builder s).Sound := by
  induction r with
  | start => exact Builder.sound_ofScheme s
  | concat r step ih => exact ih.step step

@[simp] theorem scheme_builder (s : Scheme) (r : Run stage) : (r.builder s).scheme = s := by
  induction r with
  | start => rfl
  | concat r step ih => exact (Builder.scheme_step _ step).trans ih

theorem authority_builder (s : Scheme) (r : Run stage) : (r.builder s).authority = r.last Step.authority? := by
  induction r with
  | start => rfl
  | concat r step ih =>
    rw [builder, (r.sound_builder s).authority_step, ih]
    rfl

/-- A part that steps replace is what was set last, or what it was at the start. -/
theorem getD_last {α : Type} {setting : {stage next : Stage} → Step stage next → Option α}
    {part : {stage : Stage} → Builder stage → α}
    (h : ∀ {stage next : Stage} (b : Builder stage) (s : Step stage next), part (b.step s) = (setting s).getD (part b))
    (s : Scheme) (r : Run stage) : part (r.builder s) = (r.last setting).getD (part (.ofScheme s)) := by
  induction r with
  | start => rfl
  | concat r step ih =>
    rw [builder, h, ih, last]
    cases setting step <;> rfl

theorem path_builder (s : Scheme) (r : Run stage) : (r.builder s).path = (r.last Step.path?).getD .empty :=
  getD_last Builder.path_step s r

theorem query_builder (s : Scheme) (r : Run stage) : (r.builder s).query = (r.last Step.query?).join := by
  rw [getD_last Builder.query_step s r]
  cases r.last Step.query? <;> rfl

theorem fragment_builder (s : Scheme) (r : Run stage) : (r.builder s).fragment = (r.last Step.fragment?).join := by
  rw [getD_last Builder.fragment_step s r]
  cases r.last Step.fragment? <;> rfl

end Run

/-- A hierarchical part is its authority and its path. -/
theorem HierPart.eq_of_authority?_of_path {h h' : HierPart} (ha : h.authority? = h'.authority?) (hp : h.path = h'.path) :
    h = h' := by
  cases h with
  | bare p =>
    cases h' with
    | bare p' => exact congrArg bare hp
    | under a' p' => cases ha
  | under a p =>
    cases h' with
    | bare p' => cases ha
    | under a' p' =>
      obtain rfl := Option.some.inj ha
      rcases p with _ | p <;> rcases p' with _ | p'
      · rfl
      · cases hp
      · cases hp
      · rw [Path.absolute.inj hp]

@[simp] theorem HierPart.path_mapAuthority (f : Authority → Authority) (h : HierPart) :
    (h.mapAuthority f).path = h.path := by
  cases h <;> rfl

/-- At the end of every run the URI is the one of what was set last: of authority and path, neither of which is left out,
and of query and fragment, each of which may have been cleared.  So runs with the same last settings have the same URI. -/
theorem Run.build_eq_ofParts_last (s : Scheme) :
    (∀ {stage : Stage} (r : Run stage), ∃ h : HierPart,
        (h.authority? = r.last Step.authority? ∧ h.path = (r.last Step.path?).getD .empty) ∧
          (r.builder s).build = .ofParts s ⟨h, (r.last Step.query?).join, (r.last Step.fragment?).join⟩ ∧
            (r.builder s).build.parts.hier.path = (r.last Step.path?).getD .empty) ∧
      ∀ {stage stage' : Stage} (r : Run stage) (r' : Run stage'),
        r.last Step.authority? = r'.last Step.authority? → r.last Step.path? = r'.last Step.path? →
          (r.last Step.query?).join = (r'.last Step.query?).join →
            (r.last Step.fragment?).join = (r'.last Step.fragment?).join → (r.builder s).build = (r'.builder s).build := by
  have hauthority {stage : Stage} (r : Run stage) : (r.builder s).hier.authority? = r.last Step.authority? := by
    rw [Builder.authority?_hier, r.authority_builder]
  have hpath {stage : Stage} (r : Run stage) : (r.builder s).hier.path = (r.last Step.path?).getD .empty := by
    rw [(r.sound_builder s).path_hier, r.path_builder]
  have hbuild {stage : Stage} (r : Run stage) : (r.builder s).build =
      .ofParts s ⟨(r.builder s).hier, (r.last Step.query?).join, (r.last Step.fragment?).join⟩ := by
    rw [Builder.build, r.scheme_builder, r.query_builder, r.fragment_builder]
  constructor
  · intro stage r
    refine ⟨(r.builder s).hier, ⟨hauthority r, hpath r⟩, hbuild r, ?_⟩
    exact (HierPart.path_mapAuthority _ _).trans (hpath r)
  · intro stage stage' r r' ha hp hq hf
    have hhier : (r.builder s).hier = (r'.builder s).hier := by
      apply HierPart.eq_of_authority?_of_path
      · rw [hauthority, hauthority, ha]
      · rw [hpath, hpath, hp]
    rw [hbuild, hbuild, hhier, hq, hf]

/-- A query set first of all, and one set last after another was cleared. -/
theorem Run.build_eq_of_query_first_or_last :
    let a : Authority := ⟨none, .localhost, some (.ofNumber 80)⟩
    let p : AbsolutePath := .ofSegments [.ofValue ['a']]
    let q : Query := .ofValue ['q']
    let r : Run .path := ((Run.start.concat (.query (some q))).concat (.authority a)).concat (.absolutePath p)
    let r' : Run .path :=
      ((((Run.start.concat (.authority a)).concat (.query (some (.ofValue ['x'])))).concat (.absolutePath p)).concat
        (.query none)).concat (.query (some q))
    r.last Step.path? = some (.absolute p) ∧ (r.builder .http).build.text = "http://localhost/a?q".toList ∧
      (r.builder .http).build = (r'.builder .http).build := by
  intro a p q r r'
  exact ⟨rfl, by decide, (Run.build_eq_ofParts_last .http).2 r r' rfl rfl rfl rfl⟩

end GenericUri
