import GenericUri.Proofs.Components
import GenericUri.Proofs.DotSegments

/-!
# Path — paths read back

An absolute path holds values only and is not one empty segment; a rootless path holds values behind a block of `..`
and is not empty.  This is what removing the steps leaves (`values_remove_dropped`, `leading_remove_kept`), so every
path that is built, read or resolved is well-formed, and a well-formed path is read from its text in every position
where it can stand.  The mark `./` in front is a step that reading takes (`remove_dot_cons`).
-/

namespace GenericUri

open DotSegments

/-! ### Segments between slashes -/

section Segments

variable {t : Text} {segments : List Segment}

/-- Each of the segments is read back. -/
def AllReadBack (segments : List Segment) : Prop := ∀ s ∈ segments, ReadsBack s

theorem readSegments_eq_ok_iff :
    readSegments t = .ok segments ↔
      ∃ ts, ts ≠ [] ∧ t = Text.join '/' ts ∧ List.Forall₂ (fun u s => Segment.read u = .ok s) ts segments := by
  unfold readSegments
  rw [mapM_eq_ok_iff]
  constructor
  · intro h
    exact ⟨t.splitOn '/', List.splitOn_ne_nil '/' t, (Text.join_splitOn '/' t).symm, h⟩
  · rintro ⟨ts, hne, rfl, h⟩
    have hsep : ∀ u ∈ ts, '/' ∉ u := by
      intro u hu
      obtain ⟨s, -, hs⟩ := exists_of_forall₂_left h hu
      exact Segment.not_mem_of_read hs (by simp)
    rw [Text.splitOn_join hsep hne]
    exact h

theorem readSegments_segmentsText (h : AllReadBack segments) (hne : segments ≠ []) :
    readSegments (segmentsText segments) = .ok segments := by
  refine readSegments_eq_ok_iff.2 ⟨segments.map Segment.text, ?_, rfl, ?_⟩
  · simpa using hne
  · rw [List.forall₂_map_left_iff, List.forall₂_same]
    exact h

theorem allReadBack_of_readSegments (h : readSegments t = .ok segments) : AllReadBack segments := by
  obtain ⟨ts, -, -, hs⟩ := readSegments_eq_ok_iff.1 h
  intro s hm
  obtain ⟨u, -, hu⟩ := exists_of_forall₂_right hs hm
  exact Segment.readsBack_of_read hu

theorem not_mem_of_readSegments (h : readSegments t = .ok segments) {c : Char} (hc : c ∈ ['?', '#']) : c ∉ t := by
  obtain ⟨ts, -, rfl, hs⟩ := readSegments_eq_ok_iff.1 h
  intro hm
  have hne : c ≠ '/' := by
    rintro rfl
    exact absurd hc (by decide)
  rcases Text.mem_join hm with hm | ⟨u, hu, hm⟩
  · exact hne hm
  · obtain ⟨s, -, hs⟩ := exists_of_forall₂_left hs hu
    exact Segment.not_mem_of_read hs (List.mem_cons_of_mem _ hc) hm

theorem AllReadBack.not_mem_segmentsText (h : AllReadBack segments) {c : Char} (hc : c ∈ ['?', '#']) :
    c ∉ segmentsText segments := by
  by_cases hne : segments = []
  · subst hne
    exact List.not_mem_nil
  · exact not_mem_of_readSegments (readSegments_segmentsText h hne) hc

theorem AllReadBack.remove (h : AllReadBack segments) (u : Unmatched) : AllReadBack (remove u segments) := by
  intro s hs
  rcases mem_remove hs with hs | rfl
  · exact h s hs
  · exact Segment.readsBack_empty

theorem AllReadBack.append {rest : List Segment} (h : AllReadBack segments) (hr : AllReadBack rest) :
    AllReadBack (segments ++ rest) :=
  List.forall_mem_append.2 ⟨h, hr⟩

theorem AllReadBack.dropLast (h : AllReadBack segments) : AllReadBack segments.dropLast :=
  fun s hs => h s (List.dropLast_subset segments hs)

theorem AllReadBack.dot_cons (h : AllReadBack segments) : AllReadBack (.dot :: segments) :=
  List.forall_mem_cons.2 ⟨rfl, h⟩

/-- The first segment ends at a slash, if others follow. -/
theorem segmentsText_cons (s : Segment) (segments : List Segment) :
    segmentsText (s :: segments) = s.text ++ if segments = [] then [] else '/' :: segmentsText segments := by
  split
  · next h =>
    subst h
    rw [List.append_nil]
    exact Text.join_singleton '/' s.text
  · next hne =>
    unfold segmentsText
    rw [List.map_cons, Text.join_cons_of_ne_nil (by simpa using hne)]

theorem segmentsText_dot_cons (hne : segments ≠ []) :
    segmentsText (.dot :: segments) = ['.', '/'] ++ segmentsText segments := by
  rw [segmentsText_cons, if_neg hne]
  rfl

theorem text_ne_nil {s : Segment} (hs : s.isEmpty = false) : s.text ≠ [] := by
  rcases s with _ | _ | u
  · exact List.cons_ne_nil _ _
  · exact List.cons_ne_nil _ _
  · rintro (rfl : u = [])
    exact Bool.noConfusion hs

/-- A first segment that is not empty has a text. -/
theorem segmentsText_ne_nil (hv : segments.head?.any Segment.isEmpty = false) (hne : segments ≠ []) :
    segmentsText segments ≠ [] := by
  rcases segments with _ | ⟨s, rest⟩
  · exact absurd rfl hne
  · rw [segmentsText_cons]
    exact List.append_ne_nil_of_left_ne_nil (text_ne_nil hv) _

/-- The text of a first segment that is not empty does not start with a slash. -/
theorem head?_segmentsText_ne (h : AllReadBack segments) (hv : segments.head?.any Segment.isEmpty = false) :
    (segmentsText segments).head? ≠ some '/' := by
  rcases segments with _ | ⟨s, rest⟩
  · exact nofun
  · have hs : ReadsBack s := h s List.mem_cons_self
    have hslash : '/' ∉ s.text := Segment.not_mem_of_read hs (by simp)
    rw [segmentsText_cons, List.head?_append_of_ne_nil _ (text_ne_nil hv)]
    exact fun hhead => hslash (List.mem_of_mem_head? hhead)

end Segments

/-! ### Absolute paths -/

namespace AbsolutePath

variable {p : AbsolutePath} {t : Text}

/-- No steps, and not one empty segment. -/
structure WellFormed (p : AbsolutePath) : Prop where
  readBack : AllReadBack p.segments
  values : Values p.segments
  ne_empty : p.segments ≠ [.empty]

theorem values_ofSegments (segments : List Segment) : Values (ofSegments segments).segments := by
  show Values (if remove .dropped segments = [.empty] then [] else remove .dropped segments)
  split
  · exact values_nil
  · exact values_remove_dropped segments

theorem ofSegments_ne_empty (segments : List Segment) : (ofSegments segments).segments ≠ [.empty] := by
  show (if remove .dropped segments = [.empty] then [] else remove .dropped segments) ≠ [.empty]
  split
  · exact nofun
  · next hne => exact hne

/-- Values are the segments of a path as they are, but for one empty segment. -/
theorem ofSegments_of_values {segments : List Segment} (hv : Values segments) (hne : segments ≠ [.empty]) :
    ofSegments segments = ⟨segments⟩ := by
  unfold ofSegments
  simp only [remove_of_values hv, if_neg hne]

theorem wellFormed_ofSegments {segments : List Segment} (h : AllReadBack segments) :
    (ofSegments segments).WellFormed := by
  refine ⟨?_, values_ofSegments segments, ofSegments_ne_empty segments⟩
  show AllReadBack (if remove .dropped segments = [.empty] then [] else remove .dropped segments)
  split
  · exact nofun
  · exact h.remove .dropped

/-- Nothing after the slash is read as one empty segment is. -/
theorem readAfterSlash_eq (t : Text) : readAfterSlash t = (readSegments t).map ofSegments := by
  unfold readAfterSlash
  split
  · next h =>
    subst h
    rfl
  · rfl

theorem wellFormed_of_readAfterSlash (h : readAfterSlash t = .ok p) : p.WellFormed := by
  rw [readAfterSlash_eq] at h
  obtain ⟨segments, hs, rfl⟩ := map_eq_ok_iff.1 h
  exact wellFormed_ofSegments (allReadBack_of_readSegments hs)

theorem not_mem_of_readAfterSlash (h : readAfterSlash t = .ok p) {c : Char} (hc : c ∈ ['?', '#']) : c ∉ t := by
  rw [readAfterSlash_eq] at h
  obtain ⟨segments, hs, -⟩ := map_eq_ok_iff.1 h
  exact not_mem_of_readSegments hs hc

/-- What is written after the leading slash. -/
def body (position : Position) (p : AbsolutePath) : Text :=
  (if p.needsMark position then ['.', '/'] else []) ++ segmentsText p.segments

theorem WellFormed.ofSegments_segments (h : p.WellFormed) : ofSegments p.segments = p :=
  ofSegments_of_values h.values h.ne_empty

/-- A path is read from its text whether it is marked or not. -/
theorem WellFormed.readAfterSlash_body (h : p.WellFormed) (position : Position) :
    readAfterSlash (p.body position) = .ok p := by
  by_cases hnil : p.segments = []
  · have hp : p = ⟨[]⟩ := by
      rw [← hnil]
    subst hp
    cases position <;> rfl
  rw [readAfterSlash_eq]
  by_cases hm : p.needsMark position = true
  · have hbody : p.body position = segmentsText (.dot :: p.segments) := by
      rw [body, if_pos hm, segmentsText_dot_cons hnil]
    have hsame : ofSegments (.dot :: p.segments) = ofSegments p.segments := by
      unfold ofSegments
      rw [remove_dot_cons hnil]
    rw [hbody, readSegments_segmentsText h.readBack.dot_cons (by simp)]
    show Except.ok (ofSegments (.dot :: p.segments)) = _
    rw [hsame, h.ofSegments_segments]
  · have hbody : p.body position = segmentsText p.segments := by
      rw [body, if_neg hm, List.nil_append]
    rw [hbody, readSegments_segmentsText h.readBack hnil]
    show Except.ok (ofSegments p.segments) = _
    rw [h.ofSegments_segments]

/-- Without an authority before it, a path never starts with two slashes. -/
theorem WellFormed.head?_body_ne (h : p.WellFormed) {position : Position} (hp : position ≠ .afterAuthority) :
    (p.body position).head? ≠ some '/' := by
  unfold body
  split
  · show some '.' ≠ some '/'
    decide
  · next hm =>
    have hv : p.segments.head?.any Segment.isEmpty = false := by simpa [needsMark, hp] using hm
    exact head?_segmentsText_ne h.readBack hv

end AbsolutePath

/-! ### Rootless paths -/

namespace RootlessPath

variable {p : RootlessPath}

/-- At least one segment, and no steps but leading `..`. -/
structure WellFormed (p : RootlessPath) : Prop where
  readBack : AllReadBack p.segments
  leading : Leading p.segments
  ne_nil : p.segments ≠ []

theorem wellFormed_of_ofSegments? {segments : List Segment} (h : AllReadBack segments)
    (hp : ofSegments? segments = some p) : p.WellFormed := by
  unfold ofSegments? at hp
  split at hp
  · cases hp
  · next hne =>
    obtain rfl := Option.some.inj hp
    exact ⟨h.remove .kept, leading_remove_kept segments, remove_ne_nil hne⟩

theorem WellFormed.ofRootless_segments (h : p.WellFormed) : Path.ofRootless p.segments = .rootless p := by
  unfold Path.ofRootless ofSegments?
  rw [if_neg h.ne_nil, remove_kept_of_leading h.leading]
  rfl

/-- A mark is a step that leaves no trace. -/
theorem WellFormed.ofRootless_dot_cons (h : p.WellFormed) : Path.ofRootless (.dot :: p.segments) = .rootless p := by
  unfold Path.ofRootless ofSegments?
  rw [if_neg (List.cons_ne_nil _ _), remove_dot_cons h.ne_nil, remove_kept_of_leading h.leading]
  rfl

theorem isEmpty_head?_of_not_needsMark {position : Position} (hp : position ≠ .afterAuthority)
    (hm : ¬ p.needsMark position = true) : p.segments.head?.any Segment.isEmpty = false := by
  cases position with
  | afterAuthority => exact absurd rfl hp
  | afterScheme => simpa [needsMark] using hm
  | atStart =>
    cases hs : p.segments.head? with
    | none => rfl
    | some s =>
      simp only [needsMark, hs, Option.any_some, Bool.or_eq_true, not_or] at hm
      simpa using hm.1

/-- A rootless path is read from its text wherever it can stand, and its text does not start with a slash. -/
theorem WellFormed.read_text (h : p.WellFormed) {position : Position} (hp : position ≠ .afterAuthority) :
    (readSegments (p.text position)).map Path.ofRootless = .ok (.rootless p) ∧
      p.text position ≠ [] ∧ (p.text position).head? ≠ some '/' := by
  by_cases hm : p.needsMark position = true
  · have htext : p.text position = segmentsText (.dot :: p.segments) := by
      rw [text, if_pos hm, segmentsText_dot_cons h.ne_nil]
    rw [htext]
    refine ⟨?_, ?_, ?_⟩
    · rw [readSegments_segmentsText h.readBack.dot_cons (by simp)]
      exact congrArg Except.ok h.ofRootless_dot_cons
    · rw [segmentsText_dot_cons h.ne_nil]
      exact List.cons_ne_nil _ _
    · rw [segmentsText_dot_cons h.ne_nil]
      show some '.' ≠ some '/'
      decide
  · have htext : p.text position = segmentsText p.segments := by
      rw [text, if_neg hm, List.nil_append]
    have hv := isEmpty_head?_of_not_needsMark hp hm
    rw [htext]
    refine ⟨?_, segmentsText_ne_nil hv h.ne_nil, head?_segmentsText_ne h.readBack hv⟩
    rw [readSegments_segmentsText h.readBack h.ne_nil]
    exact congrArg Except.ok h.ofRootless_segments

end RootlessPath

/-! ### Paths -/

namespace Path

variable {base p : Path} {t : Text} {segments : List Segment}

def WellFormed : Path → Prop
  | empty => True
  | absolute p => p.WellFormed
  | rootless p => p.WellFormed

theorem WellFormed.allReadBack (h : p.WellFormed) : AllReadBack p.segments := by
  cases p with
  | empty => exact nofun
  | absolute p => exact AbsolutePath.WellFormed.readBack h
  | rootless p => exact RootlessPath.WellFormed.readBack h

theorem wellFormed_ofAbsolute (h : AllReadBack segments) : (ofAbsolute segments).WellFormed :=
  AbsolutePath.wellFormed_ofSegments h

theorem wellFormed_ofRootless (h : AllReadBack segments) : (ofRootless segments).WellFormed := by
  unfold ofRootless
  cases hp : RootlessPath.ofSegments? segments with
  | none => trivial
  | some p => exact RootlessPath.wellFormed_of_ofSegments? h hp

theorem read_of_ne (hnil : t ≠ []) (hslash : t.head? ≠ some '/') : read t = (readSegments t).map ofRootless := by
  unfold read
  split
  · exact absurd rfl hnil
  · exact absurd rfl hslash
  · rfl

/-- A path is read as the empty one, after a leading slash, or from its first segment on. -/
theorem read_eq_ok_iff :
    read t = .ok p ↔ (t = [] ∧ p = empty) ∨ (∃ rest a, t = '/' :: rest ∧ AbsolutePath.readAfterSlash rest = .ok a ∧
      p = absolute a) ∨ (t ≠ [] ∧ t.head? ≠ some '/' ∧ ∃ segments, readSegments t = .ok segments ∧
        p = ofRootless segments) := by
  by_cases hnil : t = []
  · subst hnil
    simp [read, eq_comm]
  by_cases hslash : t.head? = some '/'
  · obtain ⟨rest, rfl⟩ := List.head?_eq_some_iff.1 hslash
    show (AbsolutePath.readAfterSlash rest).map absolute = .ok p ↔ _
    rw [map_eq_ok_iff]
    constructor
    · rintro ⟨a, ha, rfl⟩
      exact .inr (.inl ⟨rest, a, rfl, ha, rfl⟩)
    · rintro (⟨h, -⟩ | ⟨rest', a, h, ha, rfl⟩ | ⟨-, h, -⟩)
      · exact absurd h hnil
      · obtain rfl := (List.cons.inj h).2
        exact ⟨a, ha, rfl⟩
      · exact absurd rfl h
  · rw [read_of_ne hnil hslash, map_eq_ok_iff]
    constructor
    · rintro ⟨segments, hs, rfl⟩
      exact .inr (.inr ⟨hnil, hslash, segments, hs, rfl⟩)
    · rintro (⟨h, -⟩ | ⟨rest, a, rfl, -⟩ | ⟨-, -, segments, hs, rfl⟩)
      · exact absurd h hnil
      · exact absurd rfl hslash
      · exact ⟨segments, hs, rfl⟩

theorem wellFormed_of_read (h : read t = .ok p) : p.WellFormed := by
  rcases read_eq_ok_iff.1 h with ⟨-, rfl⟩ | ⟨rest, a, -, ha, rfl⟩ | ⟨-, -, segments, hs, rfl⟩
  · trivial
  · exact AbsolutePath.wellFormed_of_readAfterSlash ha
  · exact wellFormed_ofRootless (allReadBack_of_readSegments hs)

theorem not_mem_of_read (h : read t = .ok p) {c : Char} (hc : c ∈ ['?', '#']) : c ∉ t := by
  rcases read_eq_ok_iff.1 h with ⟨rfl, -⟩ | ⟨rest, a, rfl, ha, -⟩ | ⟨-, -, segments, hs, -⟩
  · exact List.not_mem_nil
  · have hne : c ≠ '/' := by
      rintro rfl
      exact absurd hc (by decide)
    exact List.not_mem_cons_of_ne_of_not_mem hne (AbsolutePath.not_mem_of_readAfterSlash ha hc)
  · exact not_mem_of_readSegments hs hc

/-- Where no authority precedes it, a well-formed path is read from its text, which does not start with `//`. -/
theorem WellFormed.read_text (h : p.WellFormed) {position : Position} (hp : position ≠ .afterAuthority) :
    read (p.text position) = .ok p ∧ ¬ ['/', '/'] <+: p.text position := by
  cases p with
  | empty =>
    refine ⟨rfl, ?_⟩
    show ¬ ['/', '/'] <+: []
    simp
  | absolute a =>
    have ha : a.WellFormed := h
    refine ⟨?_, ?_⟩
    · show (AbsolutePath.readAfterSlash (a.body position)).map absolute = _
      rw [ha.readAfterSlash_body position]
      rfl
    · show ¬ ['/', '/'] <+: '/' :: a.body position
      rintro ⟨r, hr⟩
      refine ha.head?_body_ne hp ?_
      rw [← (List.cons.inj hr).2]
      rfl
  | rootless r =>
    have hr : r.WellFormed := h
    obtain ⟨hread, hnil, hslash⟩ := hr.read_text hp
    refine ⟨?_, ?_⟩
    · show read (r.text position) = _
      rw [read_of_ne hnil hslash, hread]
    · show ¬ ['/', '/'] <+: r.text position
      rintro ⟨rest, hrest⟩
      exact hslash (by rw [← hrest]; rfl)

theorem WellFormed.readsBack (h : p.WellFormed) : ReadsBack p := (h.read_text (by decide)).1

theorem wellFormed_mergeOnto {base : List Segment} {r : RootlessPath} (hb : AllReadBack base) (hr : r.WellFormed) :
    (r.mergeOnto base).WellFormed := by
  unfold RootlessPath.mergeOnto
  simp only
  split
  · trivial
  · next hne =>
    rw [not_or] at hne
    exact ⟨(hb.dropLast.append hr.readBack).remove .dropped, (values_remove_dropped _).leading, hne.1⟩

theorem WellFormed.resolve (hb : base.WellFormed) (h : p.WellFormed) : (base.resolve p).WellFormed := by
  cases p with
  | empty => exact hb
  | absolute a => exact h
  | rootless r =>
    have hr : r.WellFormed := h
    cases base with
    | empty => exact wellFormed_ofAbsolute (hb.allReadBack.dropLast.append hr.readBack)
    | absolute b => exact wellFormed_ofAbsolute (hb.allReadBack.dropLast.append hr.readBack)
    | rootless b => exact wellFormed_mergeOnto hb.allReadBack hr

end Path
end GenericUri
