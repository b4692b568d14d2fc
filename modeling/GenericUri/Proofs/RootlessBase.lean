import GenericUri.Proofs.Reachable
import GenericUri.Proofs.Resolution

/-!
# RootlessBase — what a base without a root lends to a reference

A rootless path keeps its leading `..`, and an absolute path drops them.  To a reference this makes no difference, for
without the last segment both leave the same stack of values behind (`pushAll_dropLast_of_leading`).  What is merged
with the one therefore has the segments of what is merged with the other; it only stays without a slash in front
(`Path.unrooted`).  The same holds of a base that has neither an authority nor a path, beside one with the path `/`.
-/

namespace GenericUri

/-! ### The stack that a base leaves -/

namespace DotSegments

variable {base segments : List Segment}

/-- Leading `..` have nothing to undo, so the last segment can be left off before the steps are taken or afterwards. -/
theorem pushAll_dropLast_of_leading (h : Leading base) :
    pushAll .dropped [] base.dropLast = (remove .dropped base).dropLast.reverse := by
  obtain ⟨k, vs, rfl, hv⟩ := h
  cases vs using List.reverseRecOn with
  | nil =>
    cases k with
    | zero => rfl
    | succ k =>
      -- of `..` throughout nothing is left but the empty segment at the end
      have hremove : remove .dropped (List.replicate (k + 1) .dotDot) = [.empty] := by
        have hreplicate := removeOnto_replicate values_nil k
        rwa [List.drop_nil] at hreplicate
      rw [List.append_nil, hremove, List.replicate_succ', List.dropLast_concat, pushAll_dropped_replicate values_nil,
        List.drop_nil]
      rfl
  | append_singleton vs v =>
    have hremove : remove .dropped (List.replicate k .dotDot ++ (vs ++ [v])) = vs ++ [v] := by
      have hleading := removeOnto_leading values_nil k hv (by simp)
      rwa [List.drop_nil] at hleading
    rw [hremove, ← List.append_assoc, List.dropLast_concat, List.dropLast_concat, pushAll_append,
      pushAll_dropped_replicate values_nil, List.drop_nil, pushAll_of_values (values_append.1 hv).1, List.append_nil]

/-- A base may have its leading `..` dropped before anything is put in place of its last segment. -/
theorem remove_dropLast_append (hb : Leading base) (hne : segments ≠ []) :
    remove .dropped ((remove .dropped base).dropLast ++ segments) = remove .dropped (base.dropLast ++ segments) := by
  have hv : Values (remove .dropped base).dropLast := (values_remove_dropped base).dropLast
  calc remove .dropped ((remove .dropped base).dropLast ++ segments)
      = removeOnto .dropped (pushAll .dropped [] (remove .dropped base).dropLast) segments := removeOnto_append hne
    _ = removeOnto .dropped (pushAll .dropped [] base.dropLast) segments := by
        rw [pushAll_of_values hv, List.append_nil, pushAll_dropLast_of_leading hb]
    _ = remove .dropped (base.dropLast ++ segments) := (removeOnto_append hne).symm

end DotSegments

open DotSegments

namespace AbsolutePath

variable {base segments : List Segment}

/-- A single empty segment and none at all are the same without the last. -/
theorem dropLast_segments_ofSegments (segments : List Segment) :
    (ofSegments segments).segments.dropLast = (remove .dropped segments).dropLast := by
  show (if remove .dropped segments = [.empty] then [] else remove .dropped segments).dropLast = _
  split
  · next h =>
    rw [h]
    rfl
  · rfl

theorem ofSegments_dropLast_append (hb : Leading base) (hne : segments ≠ []) :
    ofSegments ((ofSegments base).segments.dropLast ++ segments) = ofSegments (base.dropLast ++ segments) := by
  rw [dropLast_segments_ofSegments]
  unfold ofSegments
  rw [remove_dropLast_append hb hne]

end AbsolutePath

/-! ### The path that stays rootless -/

namespace Path

/-- Against a rootless base a rootless path means what it means against the absolute path through the same segments, but
for the slash in front. -/
theorem resolve_rootless_eq_unrooted {b r : RootlessPath} (hb : Leading b.segments) (hr : r.segments ≠ []) :
    (rootless b).resolve (.rootless r) = unrooted ((ofAbsolute b.segments).resolve (.rootless r)).segments := by
  show r.mergeOnto b.segments =
    unrooted (AbsolutePath.ofSegments ((AbsolutePath.ofSegments b.segments).segments.dropLast ++ r.segments)).segments
  rw [RootlessPath.mergeOnto_eq_unrooted, AbsolutePath.ofSegments_dropLast_append hb hr]

end Path

/-- Against a base with neither authority nor path, which `HierPart.path_resolve` leaves out, a rootless path means what it
means against the path `/`, but for the slash in front. -/
theorem HierPart.resolve_bare_empty (r : RootlessPath) :
    (bare .empty).resolve (.bare (.rootless r)) =
      .bare (.unrooted (((bare .empty).withPath (.ofSegments [])).resolve (.bare (.rootless r))).path.segments) := by
  show bare (r.mergeOnto []) = _
  rw [RootlessPath.mergeOnto_eq_unrooted]
  rfl

/-! ### Whatever is reachable -/

/-- Rootless and absolute bases agree on the segments of what is resolved against them, and where the base has no slash
in front the path that comes of it has none either. -/
theorem resolve_unrooted_of_reachable :
    (∀ b r : RootlessPath, Reachable (.rootlessPath b) → Reachable (.rootlessPath r) →
      let target := (Path.rootless b).resolve (.rootless r)
      let absolute := (Path.ofAbsolute b.segments).resolve (.rootless r)
      target.segments = absolute.segments ∧ target = .unrooted absolute.segments) ∧
    ∀ (base : Uri) (r : RelativeRef) (p : RootlessPath), base.parts.hier = .bare .empty →
      r.parts.hier = .bare (.rootless p) →
      let target := base.resolve (.relative r)
      let absolute := Uri.resolve { base with parts := base.parts.withPath (.ofSegments []) } (.relative r)
      target.parts.hier.path.segments = absolute.parts.hier.path.segments ∧
        target.parts.hier = .bare (.unrooted absolute.parts.hier.path.segments) := by
  constructor
  · intro b r hb hr target absolute
    have hbw : b.WellFormed := hb.wellFormed
    have hrw : r.WellFormed := hr.wellFormed
    have heq : target = .unrooted absolute.segments := Path.resolve_rootless_eq_unrooted hbw.leading hrw.ne_nil
    refine ⟨?_, heq⟩
    rw [heq, Path.segments_unrooted]
  · intro base r p hbase hr target absolute
    have heq : target.parts.hier = .bare (.unrooted absolute.parts.hier.path.segments) := by
      show base.parts.hier.resolve r.parts.hier =
        .bare (.unrooted ((base.parts.hier.withPath (.ofSegments [])).resolve r.parts.hier).path.segments)
      rw [hbase, hr]
      exact HierPart.resolve_bare_empty p
    refine ⟨?_, heq⟩
    rw [heq]
    exact Path.segments_unrooted _

/-- `../../x` and `..` against `..//a`, and `../../x` against a URI of nothing but a scheme. -/
theorem resolve_unrooted_of_leading_steps :
    let b : RootlessPath := ⟨[.dotDot, .empty, .ofValue ['a']]⟩
    let r : RootlessPath := ⟨[.dotDot, .dotDot, .ofValue ['x']]⟩
    let up : RootlessPath := ⟨[.dotDot]⟩
    let base : Uri := ⟨⟨['s']⟩, ⟨.bare .empty, none, none⟩⟩
    let reference : RelativeRef := ⟨⟨.bare (.rootless r), none, none⟩⟩
    (Reachable (.rootlessPath b) ∧ Reachable (.rootlessPath r) ∧ Reachable (.rootlessPath up)) ∧
      ((Path.ofAbsolute b.segments).resolve (.rootless r) = .ofAbsolute [.ofValue ['x']] ∧
          (Path.rootless b).resolve (.rootless r) = .rootless ⟨[.ofValue ['x']]⟩) ∧
        ((Path.ofAbsolute b.segments).resolve (.rootless up) = .ofAbsolute [] ∧
            (Path.rootless b).resolve (.rootless up) = .empty) ∧
          (base.resolve (.relative reference)).parts.hier = .bare (.rootless ⟨[.ofValue ['x']]⟩) := by
  intro b r up base reference
  have hb : Reachable (.rootlessPath b) := by
    have hsegments : ∀ s ∈ b.segments, Reachable (.segment s) :=
      List.forall_mem_cons.2 ⟨.dotDot, List.forall_mem_cons.2 ⟨.emptySegment, List.forall_mem_singleton.2 .segmentValue⟩⟩
    exact .rootlessPath hsegments (by decide)
  have hr : Reachable (.rootlessPath r) := by
    have hsegments : ∀ s ∈ r.segments, Reachable (.segment s) :=
      List.forall_mem_cons.2 ⟨.dotDot, List.forall_mem_cons.2 ⟨.dotDot, List.forall_mem_singleton.2 .segmentValue⟩⟩
    exact .rootlessPath hsegments (by decide)
  have hup : Reachable (.rootlessPath up) := by
    have hsegments : ∀ s ∈ up.segments, Reachable (.segment s) := List.forall_mem_singleton.2 .dotDot
    exact .rootlessPath hsegments (by decide)
  have hbr : (Path.ofAbsolute b.segments).resolve (.rootless r) = .ofAbsolute [.ofValue ['x']] := by decide
  have hbup : (Path.ofAbsolute b.segments).resolve (.rootless up) = .ofAbsolute [] := by decide
  refine ⟨⟨hb, hr, hup⟩, ⟨hbr, ?_⟩, ⟨hbup, ?_⟩, ?_⟩
  · rw [(resolve_unrooted_of_reachable.1 b r hb hr).2, hbr]
    decide
  · rw [(resolve_unrooted_of_reachable.1 b up hb hup).2, hbup]
    decide
  · rw [(resolve_unrooted_of_reachable.2 base reference r rfl rfl).2]
    decide

end GenericUri
