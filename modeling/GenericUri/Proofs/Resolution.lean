import GenericUri.Proofs.DotSegments

/-!
# Resolution — one pass over the merged path

A rootless path has its steps taken when it is made, with unmatched `..` kept, and once more when it is put in place of
the last segment of a base.  `Path.resolve_ofRootless`: both passes together are one pass over the base and the path as
it was given.  Where the base is rootless so is the result, through the segments that an absolute path would have
(`RootlessPath.mergeOnto_eq_unrooted`).
-/

namespace GenericUri

open DotSegments

namespace Path

/-- The path through the given segments without a slash in front: rootless, or empty if there are none. -/
def unrooted (segments : List Segment) : Path := if segments = [] then empty else rootless ⟨segments⟩

@[simp] theorem segments_unrooted (l : List Segment) : (unrooted l).segments = l := by
  unfold unrooted
  split
  · next h => exact h.symm
  · rfl

end Path

namespace RootlessPath

variable {base segments : List Segment} {p : RootlessPath}

theorem segments_of_ofSegments? (h : ofSegments? segments = some p) : p.segments = remove .kept segments := by
  unfold ofSegments? at h
  split at h
  · cases h
  · obtain rfl := Option.some.inj h
    rfl

/-- A merge stays rootless, through the segments that an absolute path would have. -/
theorem mergeOnto_eq_unrooted (base : List Segment) (p : RootlessPath) :
    p.mergeOnto base = .unrooted (AbsolutePath.ofSegments (base.dropLast ++ p.segments)).segments := by
  unfold mergeOnto AbsolutePath.ofSegments Path.unrooted
  simp only
  by_cases hempty : remove .dropped (base.dropLast ++ p.segments) = [.empty]
  · rw [if_pos (.inr hempty), if_pos hempty, if_pos rfl]
  · rw [if_neg hempty]
    simp only [hempty, or_false]

theorem segments_mergeOnto (base : List Segment) (p : RootlessPath) :
    (p.mergeOnto base).segments = (AbsolutePath.ofSegments (base.dropLast ++ p.segments)).segments := by
  rw [mergeOnto_eq_unrooted, Path.segments_unrooted]

end RootlessPath

namespace Path

/-- Taking the steps before the base is known makes no difference to an absolute path. -/
theorem ofSegments_append_remove_kept {front rest : List Segment} (hne : rest ≠ []) :
    AbsolutePath.ofSegments (front ++ remove .kept rest) = AbsolutePath.ofSegments (front ++ rest) := by
  unfold AbsolutePath.ofSegments
  rw [remove_append_remove_kept hne]

/-- A rootless path means what one removal of steps leaves of the base, less its last segment, and the path as it was
given.  It is absolute unless the base is rootless. -/
theorem resolve_ofRootless (base : Path) {segments : List Segment} (hne : segments ≠ []) :
    (base.resolve (.ofRootless segments)).segments =
        (AbsolutePath.ofSegments (base.segments.dropLast ++ segments)).segments ∧
      ((∀ b, base ≠ .rootless b) →
        base.resolve (.ofRootless segments) = .ofAbsolute (base.segments.dropLast ++ segments)) := by
  obtain ⟨p, hp⟩ : ∃ p, RootlessPath.ofSegments? segments = some p := ⟨_, if_neg hne⟩
  have hpath : ofRootless segments = .rootless p := by
    unfold ofRootless
    rw [hp]
    rfl
  have hsegments : p.segments = remove .kept segments := RootlessPath.segments_of_ofSegments? hp
  have hone : ∀ front, AbsolutePath.ofSegments (front ++ p.segments) = AbsolutePath.ofSegments (front ++ segments) := by
    intro front
    rw [hsegments]
    exact ofSegments_append_remove_kept hne
  have habsolute : (∀ b, base ≠ .rootless b) →
      base.resolve (.rootless p) = .ofAbsolute (base.segments.dropLast ++ segments) := by
    intro hb
    have hresolve : base.resolve (.rootless p) = .ofAbsolute (base.segments.dropLast ++ p.segments) := by
      cases base with
      | empty => rfl
      | absolute a => rfl
      | rootless b => exact absurd rfl (hb b)
    rw [hresolve]
    exact congrArg absolute (hone _)
  rw [hpath]
  refine ⟨?_, habsolute⟩
  cases base with
  | rootless b =>
    show (p.mergeOnto b.segments).segments = _
    rw [RootlessPath.segments_mergeOnto, hone]
    rfl
  | empty =>
    rw [habsolute nofun]
    rfl
  | absolute a =>
    rw [habsolute nofun]
    rfl

/-- `x/../../c/.` against `../a/b` and against `/a/b`. -/
theorem resolve_ofRootless_excess :
    let base : List Segment := [.dotDot, .ofValue ['a'], .ofValue ['b']]
    let segments : List Segment := [.ofValue ['x'], .dotDot, .dotDot, .ofValue ['c'], .dot]
    segments ≠ [] ∧
      ((ofRootless base).resolve (.ofRootless segments)).segments = [.ofValue ['c'], .empty] ∧
        (ofAbsolute base).resolve (.ofRootless segments) = .ofAbsolute [.ofValue ['c'], .empty] := by
  intro base segments
  have hne : segments ≠ [] := List.cons_ne_nil _ _
  refine ⟨hne, ?_, ?_⟩
  · rw [(resolve_ofRootless (ofRootless base) hne).1]
    decide
  · rw [(resolve_ofRootless (ofAbsolute base) hne).2 nofun]
    decide

end Path
end GenericUri
