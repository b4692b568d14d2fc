import GenericUri.Proofs.Reachable
import GenericUri.Proofs.Resolution

/-!
# Structure — the shape of every reference

Whatever operations made a reference, in whatever order: only an absolute path can follow an authority, an absolute path
holds values only, a rootless path starts with all its steps, and a scheme is lower-case (`shaped_of_reachable`).  This
is what being well-formed says of the parts of a reference.

Resolution leaves no step in a path, also where the base path starts with `..`: a path that the reference brings along
has none, and what is merged has its steps taken with unmatched `..` dropped (`HierPart.values_path_resolve`).
-/

namespace GenericUri

open DotSegments

theorem RootlessPath.values_mergeOnto (base : List Segment) (p : RootlessPath) : Values (p.mergeOnto base).segments := by
  rw [segments_mergeOnto]
  exact AbsolutePath.values_ofSegments _

/-- A path resolved against any other has no steps left. -/
theorem Path.values_resolve (base : Path) {p : Path} (hp : p.WellFormed) (hne : p ≠ .empty) :
    Values (base.resolve p).segments := by
  cases p with
  | empty => exact absurd rfl hne
  | absolute q => exact AbsolutePath.WellFormed.values hp
  | rootless q =>
    cases base with
    | empty => exact AbsolutePath.values_ofSegments _
    | absolute b => exact AbsolutePath.values_ofSegments _
    | rootless b => exact RootlessPath.values_mergeOnto b.segments q

namespace HierPart

variable {h : HierPart}

/-- How authority and path of a reference fit together. -/
structure Shaped (h : HierPart) : Prop where
  under_authority : h.authority? ≠ none → h.path = .empty ∨ ∃ p, h.path = .absolute p
  absolute : ∀ p, h.path = .absolute p → Values p.segments ∧ p.segments ≠ [.empty]
  rootless : ∀ p, h.path = .rootless p → p.segments ≠ [] ∧ Leading p.segments

theorem WellFormed.shaped (hw : h.WellFormed) : h.Shaped := by
  have hpath := hw.path
  refine ⟨?_, ?_, ?_⟩
  · intro ha
    cases h with
    | bare p => exact absurd rfl ha
    | under a p =>
      cases p with
      | none => exact .inl rfl
      | some q => exact .inr ⟨q, rfl⟩
  · intro p hp
    rw [hp] at hpath
    exact ⟨AbsolutePath.WellFormed.values hpath, AbsolutePath.WellFormed.ne_empty hpath⟩
  · intro p hp
    rw [hp] at hpath
    exact ⟨RootlessPath.WellFormed.ne_nil hpath, RootlessPath.WellFormed.leading hpath⟩

/-- A path resolved against any base has no steps left. -/
theorem values_path_resolve (base : HierPart) (hw : h.WellFormed) (hne : h.path ≠ .empty) :
    Values (base.resolve h).path.segments := by
  cases h with
  | under a p =>
    cases p with
    | none => exact absurd rfl hne
    | some q => exact (hw.2 q rfl).values
  | bare p =>
    have hp : p.WellFormed := hw
    by_cases hempty : base = .bare .empty ∧ ∃ r, p = .rootless r
    · obtain ⟨rfl, r, rfl⟩ := hempty
      exact RootlessPath.values_mergeOnto [] r
    · rw [path_resolve hempty]
      exact Path.values_resolve base.path hp hne

end HierPart

/-! ### Schemes -/

/-- A URI holds its scheme as the name alone is read: in lower case, and without a default port. -/
theorem Uri.WellFormed.scheme_lower {u : Uri} (h : u.WellFormed) :
    Text.asciiLower u.scheme.text = u.scheme.text ∧ parse Scheme u.scheme.text = .ok ⟨u.scheme, none⟩ := by
  constructor
  · obtain ⟨c, rest, ht, -, -, hn⟩ := SchemeName.ofText_eq_ok_iff.1 h.scheme
    exact hn.symm
  · exact parse_eq_ok_iff.2 (mapError_eq_ok_iff.2 (map_eq_ok_iff.2 ⟨u.scheme, h.scheme, rfl⟩))

/-! ### Whatever is reachable -/

/-- The shape of whatever can be made, and of what a path becomes that is resolved. -/
theorem shaped_of_reachable :
    (∀ u : Uri, Reachable (.uri u) →
      u.parts.hier.Shaped ∧ Text.asciiLower u.scheme.text = u.scheme.text ∧
        parse Scheme u.scheme.text = .ok ⟨u.scheme, none⟩) ∧
      (∀ r : RelativeRef, Reachable (.relativeRef r) → r.parts.hier.Shaped) ∧
        ∀ (base : Uri) (r : RelativeRef), Reachable (.relativeRef r) → r.parts.hier.path ≠ .empty →
          Values (base.resolve (.relative r)).parts.hier.path.segments := by
  refine ⟨?_, ?_, ?_⟩
  · intro u hu
    have hw : u.WellFormed := hu.wellFormed
    exact ⟨hw.parts.hier.shaped, hw.scheme_lower⟩
  · intro r hr
    have hw : r.WellFormed := hr.wellFormed
    exact (Parts.WellFormed.hier hw).shaped
  · intro base r hr hne
    have hw : r.WellFormed := hr.wellFormed
    exact HierPart.values_path_resolve base.parts.hier (Parts.WellFormed.hier hw) hne

/-- The path `../b` against `../a`, where neither has an authority. -/
theorem shaped_of_leading_steps :
    let u := Uri.ofParts .http ⟨.bare (.ofRootless [.dotDot, .ofValue ['a']]), none, none⟩
    let r : RelativeRef := ⟨⟨.bare (.ofRootless [.dotDot, .ofValue ['b']]), none, none⟩⟩
    (Reachable (.uri u) ∧ Reachable (.relativeRef r) ∧ r.parts.hier.path ≠ .empty) ∧
      (u.text = "http:../a".toList ∧ r.text = "../b".toList ∧ (u.resolve (.relative r)).text = "http:b".toList) ∧
        (u.parts.hier.Shaped ∧ r.parts.hier.Shaped) ∧
          Values (u.resolve (.relative r)).parts.hier.path.segments := by
  intro u r
  have hsegments : ∀ c, ∀ s ∈ [Segment.dotDot, .ofValue [c]], Reachable (.segment s) := by
    intro c s hs
    rcases List.mem_cons.1 hs with rfl | hs
    · exact .dotDot
    · obtain rfl := List.mem_singleton.1 hs
      exact .segmentValue
  have hu : Reachable (.uri u) := .uri .http (.bare (.ofRootless (hsegments 'a'))) nofun nofun
  have hr : Reachable (.relativeRef r) := .relativeRef (.bare (.ofRootless (hsegments 'b'))) nofun nofun
  have hne : r.parts.hier.path ≠ .empty := by decide
  exact ⟨⟨hu, hr, hne⟩, ⟨by decide, by decide, by decide⟩,
    ⟨(shaped_of_reachable.1 u hu).1, shaped_of_reachable.2.1 r hr⟩, shaped_of_reachable.2.2 u r hr hne⟩

end GenericUri
