import GenericUri.Proofs.Reachable
import GenericUri.Proofs.Resolution

/-!
# Transform — resolution as RFC 3986 has it

RFC 3986 resolves references on text: section 5.2.3 puts the path of the reference in place of the last segment of the
base path, and section 5.2.4 takes the steps of the result in a loop over an input and an output buffer.  Both are
written down here as the RFC has them, and `Uri.resolve_eq_transform` says that resolving on segments does the same.

The loop and `removeOnto` go in step (`removeDotLoop_slashed`): while the input is the segments ahead, each after a
slash, the output is the stack, and going up a segment in the output is dropping the top of the stack.
-/

namespace GenericUri

open DotSegments

namespace Transform

/-! ### The algorithms on text -/

/-- The output without its last segment and the slash before it, if any. -/
def dropLastSegment (output : Text) : Text :=
  match Text.cutLast '/' output with
  | some (front, _) => front
  | none => []

/-- The loop of section 5.2.4, with its cases A to E in order. -/
def removeDotLoop (output : Text) : Text → Text
  | [] => output
  -- A
  | '.' :: '.' :: '/' :: rest => removeDotLoop output rest
  | '.' :: '/' :: rest => removeDotLoop output rest
  -- B
  | '/' :: '.' :: '/' :: rest => removeDotLoop output ('/' :: rest)
  | ['/', '.'] => removeDotLoop output ['/']
  -- C
  | '/' :: '.' :: '.' :: '/' :: rest => removeDotLoop (dropLastSegment output) ('/' :: rest)
  | ['/', '.', '.'] => removeDotLoop (dropLastSegment output) ['/']
  -- D
  | ['.'] => removeDotLoop output []
  | ['.', '.'] => removeDotLoop output []
  -- E
  | c :: rest =>
    removeDotLoop (output ++ c :: rest.takeWhile fun d => d ≠ '/') (rest.dropWhile fun d => d ≠ '/')
termination_by input => input.length
decreasing_by
  all_goals simp only [List.length_cons, List.length_nil]
  all_goals first | omega | exact Nat.lt_succ_of_le (List.dropWhile_sublist _).length_le

/-- Section 5.2.4. -/
def removeDotSegments (path : Text) : Text := removeDotLoop [] path

/-- Section 5.2.3: the path of a reference after all but the last segment of the base path. -/
def merge (hasAuthority : Bool) (base ref : Text) : Text :=
  if hasAuthority ∧ base = [] then '/' :: ref
  else
    match Text.cutLast '/' base with
    | some (front, _) => front ++ '/' :: ref
    | none => ref

/-! ### Segments after slashes -/

variable {stack segments : List Segment} {s : Segment} {t output rest : Text}

/-- The segments, each after a slash. -/
def slashed (segments : List Segment) : Text := segments.flatMap fun s => '/' :: s.text

@[simp] theorem slashed_nil : slashed [] = [] := rfl

@[simp] theorem slashed_cons (s : Segment) (segments : List Segment) :
    slashed (s :: segments) = '/' :: s.text ++ slashed segments := rfl

theorem slashed_append (front back : List Segment) : slashed (front ++ back) = slashed front ++ slashed back :=
  List.flatMap_append

theorem cons_segmentsText (hne : segments ≠ []) : '/' :: segmentsText segments = slashed segments := by
  induction segments with
  | nil => exact absurd rfl hne
  | cons s segments ih =>
    rw [segmentsText_cons, slashed_cons, List.cons_append]
    split
    · next hs =>
      subst hs
      rfl
    · next hs => rw [ih hs]

/-- An absolute path after an authority is its segments after slashes; no segments are written as an empty one. -/
theorem text_afterAuthority (p : AbsolutePath) :
    p.text .afterAuthority = slashed (if p.segments = [] then [.empty] else p.segments) := by
  have htext : p.text .afterAuthority = '/' :: segmentsText p.segments := rfl
  rw [htext]
  split
  · next h =>
    rw [h]
    rfl
  · next h => exact cons_segmentsText h

/-- Collapsing a lone empty segment cannot be seen in the text. -/
theorem text_ofSegments (hne : segments ≠ []) :
    (AbsolutePath.ofSegments segments).text .afterAuthority = slashed (remove .dropped segments) := by
  rw [text_afterAuthority]
  unfold AbsolutePath.ofSegments
  by_cases h : remove .dropped segments = [.empty]
  · simp only [h]
    rfl
  · simp only [if_neg h, if_neg (remove_ne_nil hne)]

/-! ### The loop on segments -/

theorem removeDotLoop_nil (output : Text) : removeDotLoop output [] = output := by
  rw [removeDotLoop]

/-- What follows a segment: nothing, or the next slash. -/
def AtSlash (rest : Text) : Prop := ∀ c ∈ rest.head?, c = '/'

theorem atSlash_slashed (segments : List Segment) : AtSlash (slashed segments) := by
  intro c hc
  cases segments with
  | nil => cases hc
  | cons s segments => exact (Option.some.inj hc).symm

theorem takeWhile_append_atSlash (ht : '/' ∉ t) (hr : AtSlash rest) :
    ((t ++ rest).takeWhile fun d => d ≠ '/') = t ∧ ((t ++ rest).dropWhile fun d => d ≠ '/') = rest := by
  have hall : ∀ c ∈ t, decide (c ≠ '/') = true := by
    intro c hc
    refine decide_eq_true ?_
    rintro rfl
    exact ht hc
  rw [List.takeWhile_append_of_pos hall, List.dropWhile_append_of_pos hall]
  rcases rest with _ | ⟨c, rest⟩
  · exact ⟨List.append_nil t, rfl⟩
  · obtain rfl : c = '/' := hr c rfl
    rw [List.takeWhile_cons_of_neg (by simp), List.dropWhile_cons_of_neg (by simp)]
    exact ⟨List.append_nil t, rfl⟩

/-- Case E: a segment that is no step goes to the output. -/
theorem removeDotLoop_value (h1 : t ≠ ['.']) (h2 : t ≠ ['.', '.']) (ht : '/' ∉ t) (hr : AtSlash rest) :
    removeDotLoop output ('/' :: t ++ rest) = removeDotLoop (output ++ '/' :: t) rest := by
  obtain ⟨htake, hdrop⟩ := takeWhile_append_atSlash ht hr
  -- a step in front would be all of `t`, which ends at the first slash
  have hne : ∀ u, t ++ rest = u → (u.takeWhile fun d => d ≠ '/') ≠ ['.'] ∧ (u.takeWhile fun d => d ≠ '/') ≠ ['.', '.'] := by
    rintro u rfl
    rw [htake]
    exact ⟨h1, h2⟩
  have hstep : removeDotLoop output ('/' :: (t ++ rest)) =
      removeDotLoop (output ++ '/' :: (t ++ rest).takeWhile fun d => d ≠ '/')
        ((t ++ rest).dropWhile fun d => d ≠ '/') := by
    rw [removeDotLoop]
    · exact fun _ h => absurd h (by decide)
    · exact fun _ h => absurd h (by decide)
    · exact fun r _ h => (hne _ h).1 rfl
    · exact fun _ h => (hne _ h).1 rfl
    · exact fun r _ h => (hne _ h).2 rfl
    · exact fun _ h => (hne _ h).2 rfl
    · exact fun h => absurd h (by decide)
    · exact fun h => absurd h (by decide)
  rw [List.cons_append, hstep, htake, hdrop]

/-- The output loses a segment where the stack loses one. -/
theorem dropLastSegment_slashed (h : AllReadBack stack) :
    dropLastSegment (slashed stack.reverse) = slashed (stack.drop 1).reverse := by
  unfold dropLastSegment
  cases stack with
  | nil => rfl
  | cons s below =>
    have hs : '/' ∉ s.text := Segment.not_mem_of_read (h s List.mem_cons_self) (by simp)
    have htext : slashed (s :: below).reverse = slashed below.reverse ++ '/' :: s.text := by
      rw [List.reverse_cons, slashed_append, slashed_cons, slashed_nil, List.append_nil]
    rw [htext, Text.cutLast_eq_some_iff.2 ⟨rfl, hs⟩]
    rfl

/-- The loop takes one segment as `push` does. -/
theorem removeDotLoop_push {segments : List Segment} (hs : ReadsBack s) (hstack : AllReadBack stack) (hv : Values stack) :
    removeDotLoop (slashed stack.reverse) (slashed (s :: segments)) =
      removeDotLoop (slashed (push .dropped segments.isEmpty stack s).reverse) (slashed segments) := by
  -- a step at the end turns into a slash, and the slash into an empty segment
  have hlast : ∀ below : List Segment, removeDotLoop (slashed below.reverse) ['/'] =
      removeDotLoop (slashed (trailing true ++ below).reverse) [] := by
    intro below
    have hdot : ([] : Text) ≠ ['.'] := nofun
    have hdotDot : ([] : Text) ≠ ['.', '.'] := nofun
    have hrest : AtSlash [] := nofun
    have hempty : removeDotLoop (slashed below.reverse) ['/'] = removeDotLoop (slashed below.reverse ++ ['/']) [] :=
      removeDotLoop_value hdot hdotDot List.not_mem_nil hrest
    have htrailing : slashed (trailing true ++ below).reverse = slashed below.reverse ++ ['/'] := by
      rw [List.reverse_append, slashed_append]
      rfl
    rw [htrailing]
    exact hempty
  cases s with
  | value t =>
    obtain ⟨h1, h2⟩ := Segment.text_ne_step hs
    have hslash : '/' ∉ t := Segment.not_mem_of_read hs (by simp)
    rw [slashed_cons, Segment.text, removeDotLoop_value h1 h2 hslash (atSlash_slashed segments)]
    simp [slashed_append, Segment.text]
  | dot =>
    cases segments with
    | nil =>
      show removeDotLoop (slashed stack.reverse) ['/', '.'] = _
      rw [removeDotLoop]
      exact hlast stack
    | cons s' rest =>
      show removeDotLoop (slashed stack.reverse) ('/' :: '.' :: '/' :: (s'.text ++ slashed rest)) = _
      rw [removeDotLoop]
      rfl
  | dotDot =>
    have hdrop : dropLastSegment (slashed stack.reverse) = slashed (stack.drop 1).reverse :=
      dropLastSegment_slashed hstack
    cases segments with
    | nil =>
      show removeDotLoop (slashed stack.reverse) ['/', '.', '.'] = _
      rw [removeDotLoop, hdrop, push_dropped_dotDot _ hv]
      exact hlast (stack.drop 1)
    | cons s' rest =>
      show removeDotLoop (slashed stack.reverse) ('/' :: '.' :: '.' :: '/' :: (s'.text ++ slashed rest)) = _
      rw [removeDotLoop, hdrop, push_dropped_dotDot _ hv]
      rfl

theorem allReadBack_push {isLast : Bool} {u : Unmatched} (hs : ReadsBack s) (hstack : AllReadBack stack) :
    AllReadBack (push u isLast stack s) := by
  intro x hx
  rcases mem_push hx with rfl | hx | rfl
  · exact hs
  · exact hstack x hx
  · exact Segment.readsBack_empty

/-- The loop leaves the text of what `removeOnto` leaves. -/
theorem removeDotLoop_slashed (hs : AllReadBack segments) (hstack : AllReadBack stack) (hv : Values stack) :
    removeDotLoop (slashed stack.reverse) (slashed segments) = slashed (removeOnto .dropped stack segments) := by
  induction segments generalizing stack with
  | nil => exact removeDotLoop_nil _
  | cons s segments ih =>
    obtain ⟨hs, hsegments⟩ := List.forall_mem_cons.1 hs
    rw [removeDotLoop_push hs hstack hv]
    exact ih hsegments (allReadBack_push hs hstack) (values_push_dropped _ hv s)

/-- On the text of an absolute path, the algorithm is the removal of steps from its segments. -/
theorem removeDotSegments_slashed (hs : AllReadBack segments) :
    removeDotSegments (slashed segments) = slashed (remove .dropped segments) := by
  have hnone : AllReadBack [] := nofun
  exact removeDotLoop_slashed hs hnone values_nil

/-! ### Merged paths -/

theorem merge_of_slash {base ref front last : Text} {hasAuthority : Bool} (hb : base = front ++ '/' :: last)
    (hl : '/' ∉ last) : merge hasAuthority base ref = front ++ '/' :: ref := by
  subst hb
  unfold merge
  rw [if_neg (by simp), Text.cutLast_eq_some_iff.2 ⟨rfl, hl⟩]

/-- Merging puts the path of the reference after all segments of the base but the last. -/
theorem merge_absolute {p : AbsolutePath} (h : p.WellFormed) (hasAuthority : Bool) (ref : Text) :
    merge hasAuthority (p.text .afterAuthority) ref = slashed p.segments.dropLast ++ '/' :: ref := by
  rcases List.eq_nil_or_concat p.segments with hnil | ⟨front, last, hsegments⟩
  · have htext : p.text .afterAuthority = [] ++ '/' :: [] := by
      rw [text_afterAuthority, if_pos hnil]
      rfl
    rw [merge_of_slash htext List.not_mem_nil, hnil]
    rfl
  · have hlast : '/' ∉ last.text := by
      have hmem : last ∈ p.segments := by
        rw [hsegments, List.concat_eq_append]
        exact List.mem_concat_self
      exact Segment.not_mem_of_read (h.readBack last hmem) (by simp)
    have htext : p.text .afterAuthority = slashed front ++ '/' :: last.text := by
      rw [text_afterAuthority, if_neg (by rw [hsegments]; simp), hsegments, List.concat_eq_append, slashed_append,
        slashed_cons, slashed_nil, List.append_nil]
    rw [merge_of_slash htext hlast, hsegments, List.concat_eq_append, List.dropLast_concat]

/-- The mark of a rootless path is a step that the algorithm takes. -/
theorem removeDotSegments_rootless {front : List Segment} {p : RootlessPath} (hf : AllReadBack front)
    (hp : p.WellFormed) (position : Position) :
    removeDotSegments (slashed front ++ '/' :: p.text position) =
      (AbsolutePath.ofSegments (front ++ p.segments)).text .afterAuthority := by
  have hplain : removeDotSegments (slashed front ++ slashed p.segments) =
      slashed (remove .dropped (front ++ p.segments)) := by
    rw [← slashed_append]
    exact removeDotSegments_slashed (hf.append hp.readBack)
  rw [text_ofSegments (by simp [hp.ne_nil]), ← hplain]
  by_cases hm : p.needsMark position = true
  · have htext : '/' :: p.text position = slashed (.dot :: p.segments) := by
      rw [RootlessPath.text, if_pos hm, ← segmentsText_dot_cons hp.ne_nil, cons_segmentsText (List.cons_ne_nil _ _)]
    have hone : remove .dropped (front ++ .dot :: p.segments) = remove .dropped (front ++ p.segments) := by
      unfold remove
      rw [removeOnto_append (List.cons_ne_nil _ _), removeOnto_append hp.ne_nil]
      show removeOnto .dropped (pushAll .dropped [] front) ([.dot] ++ p.segments) = _
      rw [removeOnto_append hp.ne_nil]
      rfl
    rw [htext, hplain, ← slashed_append, removeDotSegments_slashed (hf.append hp.readBack.dot_cons), hone]
  · have htext : '/' :: p.text position = slashed p.segments := by
      rw [RootlessPath.text, if_neg hm, List.nil_append, cons_segmentsText hp.ne_nil]
    rw [htext]

/-- The algorithm drops the mark of an absolute path and leaves the path as it is otherwise. -/
theorem removeDotSegments_absolute {p : AbsolutePath} (hp : p.WellFormed) (position : Position) :
    removeDotSegments (p.text position) = p.text .afterAuthority := by
  have hplain : ∀ segments, AllReadBack segments → Values segments →
      removeDotSegments (slashed segments) = slashed segments := by
    intro segments hs hv
    rw [removeDotSegments_slashed hs, remove_of_values hv]
  by_cases hnil : p.segments = []
  · have htext : ∀ position, p.text position = slashed [.empty] := by
      intro position
      have hm : p.needsMark position = false := by simp [AbsolutePath.needsMark, hnil]
      rw [AbsolutePath.text, hm, hnil]
      rfl
    rw [htext, htext, hplain _ (by simp [AllReadBack, Segment.readsBack_empty]) (by simp)]
  · rw [text_afterAuthority, if_neg hnil]
    by_cases hm : p.needsMark position = true
    · have htext : p.text position = slashed (.dot :: p.segments) := by
        rw [AbsolutePath.text, if_pos hm, List.cons_append, ← segmentsText_dot_cons hnil,
          cons_segmentsText (List.cons_ne_nil _ _)]
      rw [htext, removeDotSegments_slashed hp.readBack.dot_cons, remove_dot_cons hnil, remove_of_values hp.values]
    · have htext : p.text position = slashed p.segments := by
        rw [AbsolutePath.text, if_neg hm]
        exact cons_segmentsText hnil
      rw [htext, hplain _ hp.readBack hp.values]

end Transform

/-! ### The transform -/

open Transform

/-- A base below which every path is absolute: it has an authority or an absolute path. -/
def HierPart.IsRooted (h : HierPart) : Prop := h.authority?.isSome = true ∨ ∃ p, h.path = .absolute p

/-- An authority without a path, or an absolute path. -/
theorem HierPart.IsRooted.path_cases {h : HierPart} (hr : h.IsRooted) :
    (h.authority?.isSome = true ∧ h.path = .empty) ∨ ∃ p, h.path = .absolute p := by
  rcases h with p | ⟨a, _ | p⟩
  · exact .inr (hr.resolve_left Bool.false_ne_true)
  · exact .inl ⟨rfl, rfl⟩
  · exact .inr ⟨p, rfl⟩

/-- The path of the target is what the algorithms make of the texts of the paths. -/
theorem HierPart.text_path_resolve {base : HierPart} {p : Path} (hb : base.WellFormed) (hp : p.WellFormed)
    (hbase : base.IsRooted) (hne : p ≠ .empty) :
    (base.resolve (.bare p)).path.text .afterAuthority =
      removeDotSegments
        (if (p.text .atStart).head? = some '/' then p.text .atStart
          else merge base.authority?.isSome (base.path.text .afterAuthority) (p.text .atStart)) := by
  have hnotEmpty : ¬ (base = .bare .empty ∧ ∃ r, p = .rootless r) := by
    rintro ⟨rfl, -⟩
    rcases hbase with h | ⟨b, h⟩ <;> cases h
  rw [HierPart.path_resolve hnotEmpty]
  cases p with
  | empty => exact absurd rfl hne
  | absolute q =>
    have hq : q.WellFormed := hp
    have hslash : (Path.text .atStart (.absolute q)).head? = some '/' := rfl
    rw [if_pos hslash]
    exact (removeDotSegments_absolute hq .atStart).symm
  | rootless q =>
    have hq : q.WellFormed := hp
    have hslash : (Path.text .atStart (.rootless q)).head? ≠ some '/' := (hq.read_text (by decide)).2.2
    rw [if_neg hslash]
    rcases hbase.path_cases with ⟨ha, hpath⟩ | ⟨b, hpath⟩
    · have hmerge : merge true [] (q.text .atStart) = slashed [] ++ '/' :: q.text .atStart := rfl
      have hnone : AllReadBack [] := nofun
      rw [ha, hpath]
      show _ = removeDotSegments (merge true [] (q.text .atStart))
      rw [hmerge, removeDotSegments_rootless hnone hq]
      rfl
    · -- below an absolute path merging is the same whether there is an authority or not
      have hbpath := hb.path
      rw [hpath] at hbpath ⊢
      have hbw : b.WellFormed := hbpath
      show _ = removeDotSegments (merge _ (b.text .afterAuthority) (q.text .atStart))
      rw [merge_absolute hbw, removeDotSegments_rootless hbw.readBack.dropLast hq]
      rfl

/-- Resolving against a base with an authority or an absolute path is the transform of RFC 3986, section 5.2.2.  The
path of the reference is taken as the reference itself is written, and the paths of base and target as they stand after
an authority. -/
theorem Uri.resolve_eq_transform {base : Uri} {r : RelativeRef} (hb : Reachable (.uri base))
    (hr : Reachable (.relativeRef r)) (hbase : base.parts.hier.IsRooted) :
    let target := base.resolve (.relative r)
    target.scheme = base.scheme ∧ target.parts.fragment = r.parts.fragment ∧
      (r.parts.hier.authority?.isSome = true →
        target.parts.hier.authority? = r.parts.hier.authority? ∧ target.parts.hier.path = r.parts.hier.path ∧
          target.parts.query = r.parts.query) ∧
      (r.parts.hier.authority? = none →
        target.parts.hier.authority? = base.parts.hier.authority? ∧
          (r.parts.hier.path = .empty →
            target.parts.hier.path = base.parts.hier.path ∧
              target.parts.query = if r.parts.query.isSome then r.parts.query else base.parts.query) ∧
          (r.parts.hier.path ≠ .empty →
            target.parts.query = r.parts.query ∧
              target.parts.hier.path.text .afterAuthority =
                removeDotSegments
                  (if (r.parts.hier.path.text .atStart).head? = some '/' then r.parts.hier.path.text .atStart
                    else merge base.parts.hier.authority?.isSome (base.parts.hier.path.text .afterAuthority)
                      (r.parts.hier.path.text .atStart)))) := by
  obtain ⟨scheme, ⟨bhier, bquery, bfragment⟩⟩ := base
  obtain ⟨⟨rhier, rquery, rfragment⟩⟩ := r
  have hbw : Uri.WellFormed ⟨scheme, ⟨bhier, bquery, bfragment⟩⟩ := hb.wellFormed
  have hrw : RelativeRef.WellFormed ⟨⟨rhier, rquery, rfragment⟩⟩ := hr.wellFormed
  intro target
  refine ⟨rfl, rfl, ?_, ?_⟩
  · intro ha
    cases rhier with
    | bare p => cases ha
    | under a p => exact ⟨rfl, rfl, rfl⟩
  · intro ha
    cases rhier with
    | under a p => cases ha
    | bare p =>
      refine ⟨?_, ?_, ?_⟩
      · exact HierPart.authority?_resolve bhier p
      · rintro (rfl : p = .empty)
        refine ⟨rfl, ?_⟩
        cases rquery <;> rfl
      · intro hne
        have hne : p ≠ .empty := hne
        refine ⟨?_, HierPart.text_path_resolve hbw.parts.hier hrw.hier hbase hne⟩
        show (if HierPart.bare p = .bare .empty then _ else rquery) = rquery
        rw [if_neg fun h => hne (HierPart.bare.inj h)]

/-- The reference `.//g?y` against `http://localhost/b/c`. -/
theorem Uri.resolve_eq_transform_marked :
    let base := Uri.ofParts .http ⟨.under ⟨none, .localhost, none⟩ (some (.ofSegments [.ofValue ['b'], .ofValue ['c']])),
      none, none⟩
    let r : RelativeRef := ⟨⟨.bare (.ofRootless [.empty, .ofValue ['x'], .dotDot, .ofValue ['g']]), some (.ofValue ['y']),
      none⟩⟩
    (Reachable (.uri base) ∧ Reachable (.relativeRef r) ∧ base.parts.hier.IsRooted) ∧
      r.text = ".//g?y".toList ∧
        (base.resolve (.relative r)).parts.hier.path.text .afterAuthority =
          removeDotSegments (merge true "/b/c".toList ".//g".toList) := by
  intro base r
  have hb : Reachable (.uri base) := by
    refine .uri .http (.under (.authority .localhost nofun) (forall_mem_some (.absolutePath ?_))) nofun nofun
    intro s hs
    rcases List.mem_cons.1 hs with rfl | hs
    · exact .segmentValue
    · obtain rfl := List.mem_singleton.1 hs
      exact .segmentValue
  have hr : Reachable (.relativeRef r) := by
    refine .relativeRef (.bare (.ofRootless ?_)) (forall_mem_some .tailValue) nofun
    intro s hs
    simp only [List.mem_cons, List.not_mem_nil, or_false] at hs
    rcases hs with rfl | rfl | rfl | rfl
    · exact .emptySegment
    · exact .segmentValue
    · exact .dotDot
    · exact .segmentValue
  have hbase : base.parts.hier.IsRooted := .inl rfl
  refine ⟨⟨hb, hr, hbase⟩, by decide, ?_⟩
  have htransform := (Uri.resolve_eq_transform hb hr hbase).2.2.2 rfl
  exact (htransform.2.2 (by decide)).2

end GenericUri
