import GenericUri.Proofs.Path

/-!
# NormalForm — paths through their own segments

A path is made by taking the steps of its segments.  What is left is in normal form, and a list in normal form is left as
it is, so a path made once more of its own segments is the same path.

An absolute path is in normal form without any step, unless it is one empty segment.  A rootless path keeps the `..` that
find nothing to undo, so there it is enough that no step is `.` and none comes after a value (`leading_iff`).
-/

namespace GenericUri

open DotSegments

variable {segments : List Segment}

/-- The steps of a list are a block of `..` in front of it exactly if none is `.` and none comes after a value. -/
theorem DotSegments.leading_iff :
    Leading segments ↔ .dot ∉ segments ∧ segments.Pairwise fun a b => a.IsValue → b.IsValue := by
  constructor
  · rintro ⟨k, vs, rfl, hv⟩
    refine ⟨?_, List.pairwise_append.2 ⟨?_, ?_, ?_⟩⟩
    · intro hdot
      rcases List.mem_append.1 hdot with h | h
      · cases List.eq_of_mem_replicate h
      · exact Segment.not_isValue_dot (hv _ h)
    · exact List.pairwise_replicate.2 (.inr fun h => absurd h Segment.not_isValue_dotDot)
    · exact List.pairwise_of_forall_mem_list fun _ _ b hb _ => hv b hb
    · intro a _ b hb _
      exact hv b hb
  · rintro ⟨hdot, hpairs⟩
    induction segments with
    | nil => exact values_nil.leading
    | cons s rest ih =>
      obtain ⟨hs, hrest⟩ := List.pairwise_cons.1 hpairs
      rw [List.mem_cons, not_or] at hdot
      cases s with
      | dot => exact absurd rfl hdot.1
      | dotDot =>
        obtain ⟨k, vs, rfl, hv⟩ := ih hdot.2 hrest
        exact ⟨k + 1, vs, rfl, hv⟩
      | value t =>
        have hvalue : (Segment.value t).IsValue := Segment.isValue_value t
        exact (values_cons.2 ⟨hvalue, fun b hb => hs b hb hvalue⟩).leading

/-! ### Absolute paths -/

namespace AbsolutePath

theorem segments_ofSegments_eq_iff :
    (ofSegments segments).segments = segments ↔ Values segments ∧ segments ≠ [.empty] := by
  constructor
  · intro h
    exact ⟨h ▸ values_ofSegments segments, fun hempty => ofSegments_ne_empty segments (h.trans hempty)⟩
  · rintro ⟨hv, hne⟩
    rw [ofSegments_of_values hv hne]

theorem ofSegments_segments_ofSegments (segments : List Segment) :
    ofSegments (ofSegments segments).segments = ofSegments segments :=
  ofSegments_of_values (values_ofSegments segments) (ofSegments_ne_empty segments)

end AbsolutePath

/-! ### Rootless paths -/

namespace Path

theorem ofRootless_of_ne_nil (hne : segments ≠ []) : ofRootless segments = rootless ⟨remove .kept segments⟩ := by
  unfold ofRootless RootlessPath.ofSegments?
  rw [if_neg hne]
  rfl

theorem segments_ofRootless (segments : List Segment) : (ofRootless segments).segments = remove .kept segments := by
  by_cases hne : segments = []
  · subst hne
    rfl
  · rw [ofRootless_of_ne_nil hne]
    rfl

theorem segments_ofRootless_eq_iff : (ofRootless segments).segments = segments ↔ Leading segments := by
  rw [segments_ofRootless]
  exact ⟨fun h => h ▸ leading_remove_kept segments, remove_kept_of_leading⟩

theorem ofRootless_segments_ofRootless (segments : List Segment) :
    ofRootless (ofRootless segments).segments = ofRootless segments := by
  by_cases hne : segments = []
  · subst hne
    rfl
  · rw [segments_ofRootless, ofRootless_of_ne_nil hne, ofRootless_of_ne_nil (remove_ne_nil hne),
      remove_kept_of_leading (leading_remove_kept segments)]

theorem exists_ofRootless_eq_iff :
    (∃ p, ofRootless segments = rootless p ∧ p.segments ≠ []) ↔ segments ≠ [] := by
  constructor
  · rintro ⟨p, hp, -⟩ rfl
    cases hp
  · intro hne
    exact ⟨_, ofRootless_of_ne_nil hne, remove_ne_nil hne⟩

/-! ### Both -/

/-- Making a path of the segments of a path gives that path again, and the lists that stay as they are are those in
normal form.  A rootless path has at least one segment as soon as it is made of any. -/
theorem made_of_own_segments_iff :
    (∀ segments, ofAbsolute (ofAbsolute segments).segments = ofAbsolute segments) ∧
      (∀ segments, ofRootless (ofRootless segments).segments = ofRootless segments) ∧
        (∀ segments, (ofAbsolute segments).segments = segments ↔ Values segments ∧ segments ≠ [.empty]) ∧
          (∀ segments, (ofRootless segments).segments = segments ↔
            .dot ∉ segments ∧ segments.Pairwise fun a b => a.IsValue → b.IsValue) ∧
            ∀ segments, (∃ p, ofRootless segments = rootless p ∧ p.segments ≠ []) ↔ segments ≠ [] := by
  refine ⟨?_, ofRootless_segments_ofRootless, ?_, ?_, ?_⟩
  · intro segments
    exact congrArg absolute (AbsolutePath.ofSegments_segments_ofSegments segments)
  · intro segments
    exact AbsolutePath.segments_ofSegments_eq_iff
  · intro segments
    exact segments_ofRootless_eq_iff.trans leading_iff
  · intro segments
    exact exists_ofRootless_eq_iff

end Path
end GenericUri
