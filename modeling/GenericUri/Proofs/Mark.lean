import GenericUri.Proofs.Reachable

/-!
# Mark — when `./` is written in front of a path

The text of a path is its segments between slashes, after a slash if the path is absolute, and in front of the first
segment the mark `./` or nothing.  After an authority there is never a mark, and elsewhere `Path.needsMark` decides.

Without a mark a path on its own is still read from its text, unless it is rootless and its first segment is empty:
that text is empty, or starts with a slash (`Path.WellFormed.read_afterAuthority_iff`).  In a reference without an
authority there are two more ways to misread a text, `//` at the start of an absolute path and a colon in the first
segment of a relative reference, so there the mark is written exactly where the text without it stands for something
else (`text_marked_iff_parse_ne`).
-/

namespace GenericUri

variable {segments : List Segment}

/-! ### An empty first segment -/

theorem any_isEmpty_head?_iff : segments.head?.any Segment.isEmpty = true ↔ ∃ rest, segments = .empty :: rest := by
  cases segments with
  | nil => simp
  | cons s rest => simp [Segment.isEmpty]

/-! ### Paths with and without their mark -/

namespace Path

variable {p : Path} {position : Position} {t : Text}

/-- Whether the path is written with a mark. -/
def needsMark (position : Position) : Path → Bool
  | empty => false
  | absolute p => p.needsMark position
  | rootless p => p.needsMark position

/-- What stands before the first segment and its mark. -/
def root : Path → Text
  | absolute _ => ['/']
  | _ => []

/-- The text of the path with `mark` in front of the first segment. -/
def textWith (mark : Text) (p : Path) : Text := p.root ++ mark ++ segmentsText p.segments

theorem not_mem_root {c : Char} (hc : c ∈ ['?', '#']) : c ∉ p.root := by
  cases p with
  | empty => exact List.not_mem_nil
  | absolute a =>
    intro h
    obtain rfl := List.mem_singleton.1 h
    exact absurd hc (by decide)
  | rootless r => exact List.not_mem_nil

theorem text_eq_textWith (position : Position) (p : Path) :
    p.text position = p.textWith (if p.needsMark position then ['.', '/'] else []) := by
  cases p <;> rfl

theorem needsMark_afterAuthority (p : Path) : p.needsMark .afterAuthority = false := by
  cases p <;> rfl

theorem text_afterAuthority (p : Path) : p.text .afterAuthority = p.textWith [] := by
  rw [text_eq_textWith, needsMark_afterAuthority]
  rfl

theorem text_of_not_needsMark (h : p.needsMark position = false) : p.text position = p.text .afterAuthority := by
  rw [text_eq_textWith, h, text_afterAuthority]
  rfl

theorem needsMark_afterScheme_iff :
    p.needsMark .afterScheme = true ↔ ∃ rest, p = absolute ⟨.empty :: rest⟩ ∨ p = rootless ⟨.empty :: rest⟩ := by
  cases p with
  | empty => simp [needsMark]
  | absolute a =>
    obtain ⟨segments⟩ := a
    simp [needsMark, AbsolutePath.needsMark, any_isEmpty_head?_iff]
  | rootless r =>
    obtain ⟨segments⟩ := r
    simp [needsMark, RootlessPath.needsMark, any_isEmpty_head?_iff]

/-- At the start of a reference there is one more reason for a mark. -/
theorem needsMark_atStart_iff :
    p.needsMark .atStart = true ↔
      p.needsMark .afterScheme = true ∨ ∃ s rest, p = rootless ⟨s :: rest⟩ ∧ s.hasColon = true := by
  cases p with
  | empty => simp [needsMark]
  | absolute a => simp [needsMark, AbsolutePath.needsMark]
  | rootless r =>
    obtain ⟨segments⟩ := r
    cases segments with
    | nil => simp [needsMark, RootlessPath.needsMark]
    | cons s rest => simp [needsMark, RootlessPath.needsMark]

theorem of_read_rootless {r : RootlessPath} (h : read t = .ok (rootless r)) : t ≠ [] ∧ t.head? ≠ some '/' := by
  rcases read_eq_ok_iff.1 h with ⟨-, hp⟩ | ⟨rest, a, -, -, hp⟩ | ⟨hnil, hslash, -⟩
  · cases hp
  · cases hp
  · exact ⟨hnil, hslash⟩

/-- Without a mark a path is read from its text, but for a rootless path with an empty first segment. -/
theorem WellFormed.read_afterAuthority_iff (h : p.WellFormed) :
    read (p.text .afterAuthority) = .ok p ↔ ¬ ∃ rest, p = rootless ⟨.empty :: rest⟩ := by
  constructor
  · rintro hread ⟨rest, rfl⟩
    have htext : text .afterAuthority (rootless ⟨.empty :: rest⟩) = segmentsText (.empty :: rest) := rfl
    rw [htext, segmentsText_cons] at hread
    obtain ⟨hnil, hslash⟩ := of_read_rootless hread
    split at hnil
    · exact hnil rfl
    · next hrest =>
      rw [if_neg hrest] at hslash
      exact hslash rfl
  · intro hfirst
    cases p with
    | empty => rfl
    | absolute a =>
      have ha : a.WellFormed := h
      show (AbsolutePath.readAfterSlash (a.body .afterAuthority)).map absolute = _
      rw [ha.readAfterSlash_body .afterAuthority]
      rfl
    | rootless r =>
      have hmark : needsMark .afterScheme (rootless r) = false := by
        rw [← Bool.not_eq_true, needsMark_afterScheme_iff]
        rintro ⟨rest, hr | hr⟩
        · cases hr
        · exact hfirst ⟨rest, hr⟩
      rw [← text_of_not_needsMark hmark]
      exact (h.read_text (by decide)).1

/-- No authority starts, and the path is read, without a mark exactly where none is written after a scheme. -/
theorem WellFormed.read_bare_iff (h : p.WellFormed) :
    HierPart.read (p.text .afterAuthority) = .ok (.bare p) ↔ p.needsMark .afterScheme = false := by
  rw [HierPart.read_eq_bare_iff, h.read_afterAuthority_iff, ← Bool.not_eq_true, needsMark_afterScheme_iff]
  constructor
  · rintro ⟨hslashes, hfirst⟩ ⟨rest, rfl | rfl⟩
    · have ha : AbsolutePath.WellFormed ⟨.empty :: rest⟩ := h
      have hrest : rest ≠ [] := by
        rintro rfl
        exact ha.ne_empty rfl
      apply hslashes
      show ['/', '/'] <+: '/' :: segmentsText (.empty :: rest)
      rw [segmentsText_cons, if_neg hrest]
      exact ⟨segmentsText rest, rfl⟩
    · exact hfirst ⟨rest, rfl⟩
  · intro hmark
    refine ⟨?_, fun ⟨rest, hp⟩ => hmark ⟨rest, .inr hp⟩⟩
    rw [← needsMark_afterScheme_iff, Bool.not_eq_true] at hmark
    rw [← text_of_not_needsMark hmark]
    exact (h.read_text (by decide)).2

end Path

/-- Whatever operations made a path, it is parsed from its text where a mark is written if need be.  From its text without
a mark it is parsed exactly if it is not a rootless path with an empty first segment. -/
theorem Path.parse_text_of_reachable_path {p : Path} (hp : Reachable (.path p)) :
    parse Path (p.text .afterScheme) = .ok p ∧ parse Path (p.text .atStart) = .ok p ∧
      (parse Path (p.text .afterAuthority) = .ok p ↔ ¬ ∃ rest, p = .rootless ⟨.empty :: rest⟩) := by
  have hw : p.WellFormed := hp.wellFormed
  refine ⟨?_, ?_, ?_⟩
  · exact parse_eq_ok_iff.2 (hw.read_text (by decide)).1
  · exact parse_eq_ok_iff.2 (hw.read_text (by decide)).1
  · rw [parse_eq_ok_iff]
    exact hw.read_afterAuthority_iff

/-- The path `//b` that is left of `a:b` and `.//b` is read as an absolute one without its mark; a colon does not need
one in a path on its own. -/
theorem Path.parse_text_of_resolved_path :
    let q := Path.ofRootless [.ofValue ['a', ':', 'b']]
    let p := q.resolve (.ofRootless [.dot, .empty, .ofValue ['b']])
    (Reachable (.path q) ∧ Reachable (.path p)) ∧
      (q.text .atStart = "./a:b".toList ∧ q.text .afterAuthority = "a:b".toList ∧ p.text .afterScheme = ".//b".toList ∧
        p.text .afterAuthority = "/b".toList) ∧
        (parse Path "./a:b".toList = .ok q ∧ parse Path "a:b".toList = .ok q) ∧
          parse Path ".//b".toList = .ok p ∧ parse Path "/b".toList ≠ .ok p := by
  intro q p
  have hq : Reachable (.path q) := .ofRootless (List.forall_mem_singleton.2 .segmentValue)
  have hp : Reachable (.path p) := by
    refine .pathResolve hq (.ofRootless ?_)
    exact List.forall_mem_cons.2 ⟨.dot, List.forall_mem_cons.2 ⟨.emptySegment, List.forall_mem_singleton.2 .segmentValue⟩⟩
  have hq3 := Path.parse_text_of_reachable_path hq
  have hp3 := Path.parse_text_of_reachable_path hp
  refine ⟨⟨hq, hp⟩, by decide, ⟨hq3.2.1, hq3.2.2.2 ?_⟩, hp3.1, fun h => hp3.2.2.1 h ⟨[.ofValue ['b']], rfl⟩⟩
  have hsegments : q = .rootless ⟨[.value ['a', ':', 'b']]⟩ := by decide
  rw [hsegments]
  exact nofun

/-! ### References with and without their mark -/

namespace Parts

variable {p : Parts} {position : Position}

/-- The text of the parts with `mark` in front of the first segment, where there is no authority. -/
def textWith (mark : Text) (p : Parts) : Text :=
  p.hier.path.textWith mark ++ (p.query.elim [] fun q => '?' :: q.text) ++ p.fragment.elim [] fun f => '#' :: f.text

theorem text_eq_textWith (ha : p.hier.authority? = none) (position : Position) :
    p.text position = p.textWith (if p.hier.path.needsMark position then ['.', '/'] else []) := by
  obtain ⟨path | ⟨a, path⟩, query, fragment⟩ := p
  · show path.text position ++ _ ++ _ = _
    rw [Path.text_eq_textWith]
    rfl
  · cases ha

theorem text_afterAuthority (ha : p.hier.authority? = none) : p.text .afterAuthority = p.textWith [] := by
  rw [text_eq_textWith ha, Path.needsMark_afterAuthority]
  rfl

theorem text_of_not_needsMark (ha : p.hier.authority? = none) (h : p.hier.path.needsMark position = false) :
    p.text position = p.text .afterAuthority := by
  rw [text_eq_textWith ha, h, text_afterAuthority ha]
  rfl

/-- The mark is all that tells the two texts apart. -/
theorem text_eq_marked_iff (ha : p.hier.authority? = none) :
    p.text position = p.textWith ['.', '/'] ↔ p.hier.path.needsMark position = true := by
  rw [text_eq_textWith ha]
  cases p.hier.path.needsMark position with
  | true => exact iff_of_true rfl rfl
  | false =>
    refine iff_of_false ?_ Bool.false_ne_true
    intro h
    rw [if_neg Bool.false_ne_true] at h
    have hlength := congrArg List.length h
    simp only [textWith, Path.textWith, List.length_append, List.length_cons, List.length_nil] at hlength
    omega

/-- Without a mark the parts are read from their text exactly where none is written after a scheme. -/
theorem WellFormed.read_afterAuthority_iff (h : p.WellFormed) (ha : p.hier.authority? = none) :
    read (p.text .afterAuthority) = .ok p ↔ p.hier.path.needsMark .afterScheme = false := by
  obtain ⟨path | ⟨a, path⟩, query, fragment⟩ := p
  · have hpath : path.WellFormed := h.hier
    have hq := option_mapM_map_eq_ok h.query
    have hf := option_mapM_map_eq_ok h.fragment
    have hnot : ∀ c ∈ ['?', '#'], c ∉ path.text .afterAuthority := by
      intro c hc
      have hroot : c ∉ path.root := Path.not_mem_root hc
      have hsegments := hpath.allReadBack.not_mem_segmentsText hc
      rw [Path.text_afterAuthority, Path.textWith]
      simp [hroot, hsegments]
    have hhash : '#' ∉ path.text .afterAuthority ++ (query.map Tail.text).elim [] fun q => '?' :: q := by
      rw [List.mem_append, not_or]
      exact ⟨hnot '#' (by simp), not_mem_elim_of_option_mapM hq (by decide) Tail.not_mem_of_read⟩
    rw [text_eq_append]
    show read (path.text .afterAuthority ++ _ ++ _) = _ ↔ path.needsMark .afterScheme = false
    rw [read_append_eq_ok_iff (hnot '?' (by simp)) hhash, ← hpath.read_bare_iff]
    exact and_iff_left ⟨hq, hf⟩
  · cases ha

end Parts

namespace Uri

variable {u : Uri}

theorem WellFormed.read_unmarked_iff (h : u.WellFormed) (ha : u.parts.hier.authority? = none) :
    read (u.scheme.text ++ ':' :: u.parts.text .afterAuthority) = .ok u ↔
      u.parts.hier.path.needsMark .afterScheme = false := by
  rw [read_append_eq_ok_iff h.scheme, h.parts.read_afterAuthority_iff ha]
  exact and_iff_right rfl

end Uri

namespace RelativeRef

variable {r : RelativeRef}

/-- A colon in the first segment ends a scheme. -/
theorem startsLikeScheme_of_hasColon {s : Segment} {rest : List Segment} (hs : ReadsBack s) (hc : s.hasColon = true)
    (after : Text) : startsLikeScheme (segmentsText (s :: rest) ++ after) = true := by
  obtain ⟨t, rfl⟩ : ∃ t, s = .value t := by
    cases s with
    | dot => cases hc
    | dotDot => cases hc
    | value t => exact ⟨t, rfl⟩
  obtain ⟨name, back, rfl⟩ := List.append_of_mem (List.contains_iff_mem.1 hc)
  have hname : ∀ c ∈ name, c ∉ ['/', '?', '#'] := by
    intro c hm hsep
    exact Segment.not_mem_of_read hs hsep (List.mem_append_left _ hm)
  rw [segmentsText_cons, List.append_assoc]
  show startsLikeScheme ((name ++ ':' :: back) ++ _) = true
  rw [List.append_assoc, List.cons_append]
  exact startsLikeScheme_iff.2 ⟨name, _, rfl, hname⟩

theorem WellFormed.read_unmarked_iff (h : r.WellFormed) (ha : r.parts.hier.authority? = none) :
    read (r.parts.text .afterAuthority) = .ok r ↔ r.parts.hier.path.needsMark .atStart = false := by
  have hparts : r.parts.WellFormed := h
  rw [read_eq_ok_iff, hparts.read_afterAuthority_iff ha]
  constructor
  · rintro ⟨hmark, hstart⟩
    rw [← Bool.not_eq_true, Path.needsMark_atStart_iff]
    rintro (hscheme | ⟨s, rest, hpath, hcolon⟩)
    · rw [hmark] at hscheme
      cases hscheme
    · have hs : ReadsBack s := by
        have hback := hparts.hier.path.allReadBack
        rw [hpath] at hback
        exact hback s List.mem_cons_self
      rw [Parts.text_afterAuthority ha, Parts.textWith, hpath, List.append_assoc] at hstart
      have hlike : ∀ after, startsLikeScheme (segmentsText (s :: rest) ++ after) = true :=
        startsLikeScheme_of_hasColon hs hcolon
      exact Bool.noConfusion ((hlike _).symm.trans hstart)
  · intro hmark
    constructor
    · rw [← Bool.not_eq_true, Path.needsMark_atStart_iff, not_or, Bool.not_eq_true] at hmark
      exact hmark.1
    · rw [← Parts.text_of_not_needsMark ha hmark]
      exact startsLikeScheme_text r

end RelativeRef

/-- Whatever operations made a reference without an authority, the mark `./` stands in front of the first segment of its
text exactly if the text without a mark is not parsed as that reference. -/
theorem text_marked_iff_parse_ne :
    (∀ u : Uri, Reachable (.uri u) → u.parts.hier.authority? = none →
        (u.text = u.scheme.text ++ ':' :: u.parts.textWith ['.', '/'] ↔
          parse Uri (u.scheme.text ++ ':' :: u.parts.text .afterAuthority) ≠ .ok u)) ∧
      ∀ r : RelativeRef, Reachable (.relativeRef r) → r.parts.hier.authority? = none →
        (r.text = r.parts.textWith ['.', '/'] ↔ parse RelativeRef (r.parts.text .afterAuthority) ≠ .ok r) := by
  constructor
  · intro u hu ha
    have hw : u.WellFormed := hu.wellFormed
    have htext : u.text = u.scheme.text ++ ':' :: u.parts.textWith ['.', '/'] ↔
        u.parts.text .afterScheme = u.parts.textWith ['.', '/'] := by
      show u.scheme.text ++ ':' :: u.parts.text .afterScheme = _ ↔ _
      rw [List.append_cancel_left_eq, List.cons.injEq, eq_self, true_and]
    rw [htext, Parts.text_eq_marked_iff ha, ne_eq, parse_eq_ok_iff]
    show _ ↔ ¬ Uri.read _ = .ok u
    rw [hw.read_unmarked_iff ha, Bool.not_eq_false]
  · intro r hr ha
    have hw : r.WellFormed := hr.wellFormed
    show r.parts.text .atStart = _ ↔ _
    rw [Parts.text_eq_marked_iff ha, ne_eq, parse_eq_ok_iff]
    show _ ↔ ¬ RelativeRef.read _ = .ok r
    rw [hw.read_unmarked_iff ha, Bool.not_eq_false]

/-- The path `a:b` needs a mark where a scheme could start and not after one, and the path `/` `/b` needs one in a URI. -/
theorem text_marked_iff_parse_ne_colon :
    let path := Path.ofRootless [.ofValue ['a', ':', 'b']]
    let u := Uri.ofParts .http ⟨.bare path, none, none⟩
    let v := Uri.ofParts .http ⟨.bare (.ofAbsolute [.empty, .ofValue ['b']]), none, none⟩
    let r : RelativeRef := ⟨⟨.bare path, none, none⟩⟩
    (Reachable (.uri u) ∧ Reachable (.uri v) ∧ Reachable (.relativeRef r)) ∧
      (u.text = "http:a:b".toList ∧ parse Uri "http:a:b".toList = .ok u) ∧
        (v.text = "http:/.//b".toList ∧ parse Uri "http://b".toList ≠ .ok v) ∧
          r.text = "./a:b".toList ∧ parse RelativeRef "a:b".toList ≠ .ok r := by
  intro path u v r
  have hpath : Reachable (.path path) := .ofRootless (List.forall_mem_singleton.2 .segmentValue)
  have hu : Reachable (.uri u) := .uri .http (.bare hpath) nofun nofun
  have hv : Reachable (.uri v) := by
    refine .uri .http (.bare (.ofAbsolute ?_)) nofun nofun
    exact List.forall_mem_cons.2 ⟨.emptySegment, List.forall_mem_singleton.2 .segmentValue⟩
  have hr : Reachable (.relativeRef r) := .relativeRef (.bare hpath) nofun nofun
  refine ⟨⟨hu, hv, hr⟩, ⟨by decide, ?_⟩, ⟨by decide, ?_⟩, by decide, ?_⟩
  · by_contra hne
    exact absurd ((text_marked_iff_parse_ne.1 u hu rfl).2 hne) (by decide)
  · exact (text_marked_iff_parse_ne.1 v hv rfl).1 (by decide)
  · exact (text_marked_iff_parse_ne.2 r hr rfl).1 (by decide)

end GenericUri
