import GenericUri.Proofs.Transform

/-!
# AbsolutePath — made as RFC 3986 has it

RFC 3986, section 5.2.4, takes the steps of a path on its text.  An absolute path takes them from its segments when
it is made, and drops an empty segment that is left alone.  Either way comes to the same text
(`text_ofAbsolute_eq_removeDotSegments`), whatever steps there are and whatever they find to undo.  A path that is
read is made of what its segments are read as.
-/

namespace GenericUri

open DotSegments Transform

variable {segments : List Segment} {t : Text} {p : Path}

/-- What the algorithm leaves of the segments after a slash is the path through them. -/
theorem text_ofSegments_eq_removeDotSegments (hs : AllReadBack segments) :
    (AbsolutePath.ofSegments segments).text .afterAuthority = removeDotSegments ('/' :: segmentsText segments) := by
  by_cases hne : segments = []
  · -- no segments after the slash are one empty segment
    subst hne
    have hslash : '/' :: segmentsText [] = slashed [.empty] := rfl
    have hempty : AllReadBack [.empty] := List.forall_mem_singleton.2 Segment.readsBack_empty
    rw [hslash, removeDotSegments_slashed hempty]
    rfl
  · rw [text_ofSegments hne, cons_segmentsText hne, removeDotSegments_slashed hs]

/-- A path that starts with a slash is made of what is read between the slashes. -/
theorem Path.parse_slash_eq_ok_iff :
    parse Path ('/' :: t) = .ok p ↔
      ∃ segments, List.Forall₂ (fun u s => parse Segment u = .ok s) (t.splitOn '/') segments ∧
        p = .ofAbsolute segments := by
  have hread : (Component.read ('/' :: t) : Except Fault Path) =
      ((readSegments t).map AbsolutePath.ofSegments).map Path.absolute := by
    show (AbsolutePath.readAfterSlash t).map Path.absolute = _
    rw [AbsolutePath.readAfterSlash_eq]
  rw [parse_eq_ok_iff, hread, map_eq_ok_iff]
  simp only [map_eq_ok_iff, readSegments, mapM_eq_ok_iff, parse_eq_ok_iff]
  constructor
  · rintro ⟨a, ⟨segments, hs, rfl⟩, rfl⟩
    exact ⟨segments, hs, rfl⟩
  · rintro ⟨segments, hs, rfl⟩
    exact ⟨_, ⟨segments, hs, rfl⟩, rfl⟩

/-- The absolute path through any segments has the text that the algorithm leaves of theirs, after a slash and with
slashes between them.  So has a path that starts with a slash and is parsed, with each segment written as it is
read. -/
theorem text_ofAbsolute_eq_removeDotSegments :
    (∀ segments : List Segment, (∀ s ∈ segments, Reachable (.segment s)) →
        (Path.ofAbsolute segments).text .afterAuthority =
          removeDotSegments ('/' :: Text.join '/' (segments.map Segment.text))) ∧
      ∀ (t : Text) (p : Path), parse Path ('/' :: t) = .ok p →
        ∃ segments, List.Forall₂ (fun u s => parse Segment u = .ok s) (t.splitOn '/') segments ∧
          p.text .afterAuthority = removeDotSegments ('/' :: Text.join '/' (segments.map Segment.text)) := by
  constructor
  · intro segments hr
    have hs : AllReadBack segments := fun s hs => (hr s hs).wellFormed
    exact text_ofSegments_eq_removeDotSegments hs
  · intro t p hp
    obtain ⟨segments, hparse, rfl⟩ := Path.parse_slash_eq_ok_iff.1 hp
    refine ⟨segments, hparse, text_ofSegments_eq_removeDotSegments ?_⟩
    intro s hs
    obtain ⟨u, -, hu⟩ := exists_of_forall₂_right hparse hs
    exact Segment.readsBack_of_read (parse_eq_ok_iff.1 hu)

/-- `..` undoes an empty segment as it undoes others, and none where there is none; a step at the end leaves a slash. -/
theorem text_ofAbsolute_eq_removeDotSegments_empty :
    let segments : List Segment := [.dotDot, .ofValue ['a'], .empty, .dotDot, .dotDot, .empty, .dot]
    let p := Path.ofAbsolute [.ofValue ['a'], .ofValue ['~'], .empty]
    (∀ s ∈ segments, Reachable (.segment s)) ∧ parse Path "/a//../%7e/.".toList = .ok p ∧
      (Path.ofAbsolute segments).text .afterAuthority = removeDotSegments "/../a//../..//.".toList ∧
        p.text .afterAuthority = removeDotSegments "/a//../~/.".toList := by
  intro segments p
  have hr : ∀ s ∈ segments, Reachable (.segment s) := by
    intro s hs
    simp only [segments, List.mem_cons, List.not_mem_nil, or_false] at hs
    rcases hs with rfl | rfl | rfl | rfl | rfl | rfl | rfl
    · exact .dotDot
    · exact .segmentValue
    · exact .emptySegment
    · exact .dotDot
    · exact .dotDot
    · exact .emptySegment
    · exact .dot
  have hp : parse Path "/a//../%7e/.".toList = .ok p := by decide
  refine ⟨hr, hp, text_ofAbsolute_eq_removeDotSegments.1 segments hr, ?_⟩
  obtain ⟨parsed, hparse, htext⟩ := text_ofAbsolute_eq_removeDotSegments.2 "a//../%7e/.".toList p hp
  have hsegments : parsed = [.ofValue ['a'], .empty, .dotDot, .ofValue ['~'], .dot] := by
    have hread := mapM_eq_ok_iff.2 hparse
    exact (Except.ok.inj hread).symm
  rw [htext, hsegments]
  rfl

end GenericUri
