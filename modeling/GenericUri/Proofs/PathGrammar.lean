import GenericUri.Proofs.Grammar
import GenericUri.Proofs.Reference

/-!
# PathGrammar — the rules of paths by their slashes

The five rules of paths derive segments with slashes between them (`segments`), and differ in how such a text may
start.  Two slashes would start an authority, so without one a path has none at its start (`mem_path_iff`).  In a
relative reference it does not start like a scheme either (`mem_relativePart_iff`): its first segment has no colon.
-/

namespace GenericUri.Grammar

open Computability

variable {l : Language Char} {c : Char} {t r : Text}

/-! ### Separators -/

/-- What a rule derives, with separators between. -/
theorem mem_separated :
    t ∈ l * (char c * l)∗ ↔ ∃ ts : List Text, ts ≠ [] ∧ t = Text.join c ts ∧ ∀ u ∈ ts, u ∈ l := by
  rw [Language.mem_mul]
  constructor
  · rintro ⟨u, hu, s, hs, rfl⟩
    obtain ⟨ys, rfl, hys⟩ := Language.mem_kstar.1 hs
    clear hs
    induction ys generalizing u with
    | nil => exact ⟨[u], List.cons_ne_nil _ _, by simp, by simpa using hu⟩
    | cons y ys ih =>
      obtain ⟨hy, hrest⟩ := List.forall_mem_cons.1 hys
      obtain ⟨v, hv, rfl⟩ := mem_char_mul.1 hy
      obtain ⟨ts, hne, heq, hts⟩ := ih v hv hrest
      refine ⟨u :: ts, List.cons_ne_nil _ _, ?_, List.forall_mem_cons.2 ⟨hu, hts⟩⟩
      rw [Text.join_cons_of_ne_nil hne, ← heq]
      rfl
  · rintro ⟨ts, hne, rfl, hts⟩
    induction ts with
    | nil => exact absurd rfl hne
    | cons u ts ih =>
      obtain ⟨hu, hts⟩ := List.forall_mem_cons.1 hts
      by_cases hnil : ts = []
      · subst hnil
        exact ⟨u, hu, [], Language.nil_mem_kstar _, by simp⟩
      · obtain ⟨v, hv, s, hs, heq⟩ := ih hnil hts
        have hcv : c :: v ∈ char c * l := mem_char_mul.2 ⟨v, hv, rfl⟩
        refine ⟨u, hu, c :: v ++ s, mem_kstar_cons hcv hs, ?_⟩
        rw [Text.join_cons_of_ne_nil hnil, ← heq]
        rfl

/-- Repeating a separator and a rule is optional as a whole. -/
theorem kstar_char_mul : (char c * l)∗ = opt (char c * (l * (char c * l)∗)) := by
  rw [opt, ← mul_assoc, Language.one_add_self_mul_kstar_eq_kstar]

/-- A repeated rule without one of its characters. -/
theorem mem_kstar_add_char (hl : ∀ y ∈ l, c ∉ y) : t ∈ l∗ ↔ t ∈ (l + char c)∗ ∧ c ∉ t := by
  constructor
  · intro ht
    obtain ⟨ys, rfl, hys⟩ := Language.mem_kstar.1 ht
    refine ⟨Language.mem_kstar.2 ⟨ys, rfl, fun y hy => .inl (hys y hy)⟩, ?_⟩
    intro hc
    obtain ⟨y, hy, hcy⟩ := List.mem_flatten.1 hc
    exact hl y (hys y hy) hcy
  · rintro ⟨ht, hc⟩
    obtain ⟨ys, rfl, hys⟩ := Language.mem_kstar.1 ht
    refine Language.mem_kstar.2 ⟨ys, rfl, ?_⟩
    intro y hy
    rcases (Language.mem_add _ _ _).1 (hys y hy) with h | h
    · exact h
    · rw [mem_char.1 h] at hy
      exact absurd (List.mem_flatten.2 ⟨[c], hy, List.mem_singleton_self c⟩) hc

/-! ### Segments -/

/-- Segments with slashes between them. -/
def segments : Language Char := segment * (char '/' * segment)∗

theorem segment_eq : segment = (unreserved + subDelims + oneOf [':', '@'] + pctEncoded)∗ := by
  unfold segment pchar
  congr 1
  ac_rfl

theorem nil_mem_segment : [] ∈ segment := Language.nil_mem_kstar _

theorem not_mem_of_segment (h : t ∈ segment) (hc : c ∈ ['/', '?', '#']) : c ∉ t := by
  have hout : ∀ c ∈ ['/', '?', '#'], c ≠ '%' ∧ hexValue? c = none ∧ CharSet.pchar.contains c = false :=
    forall_mem_of_all (by decide)
  obtain ⟨hp, hx, hpchar⟩ := hout c hc
  rw [segment_eq, mem_escaped_iff isClass_pchar (by decide)] at h
  intro hm
  rcases Percent.mem_of_fits h hm with h | h | h
  · exact hp h
  · simp [hx] at h
  · simp [hpchar] at h

theorem nil_not_mem_pchar : [] ∉ pchar := by
  have hrule : pchar = unreserved + subDelims + oneOf [':', '@'] + pctEncoded := by
    unfold pchar
    ac_rfl
  rw [hrule, Language.mem_add, not_or]
  refine ⟨isClass_pchar.nil_not_mem, ?_⟩
  rintro h
  obtain ⟨x, y, a, b, h, -⟩ := mem_pctEncoded.1 h
  cases h

theorem mem_segmentNz : t ∈ segmentNz ↔ t ≠ [] ∧ t ∈ segment := mem_many1 nil_not_mem_pchar

/-- What follows a segment in a path starts with a slash. -/
theorem mem_segments : t ∈ segments ↔
    ∃ u ∈ segment, ∃ o : Option Text, t = u ++ (o.elim [] fun r => '/' :: r) ∧ ∀ r ∈ o, r ∈ segments := by
  unfold segments
  rw [Language.mem_mul]
  constructor
  · rintro ⟨u, hu, s, hs, rfl⟩
    rw [kstar_char_mul, mem_opt_char_mul] at hs
    obtain ⟨o, rfl, ho⟩ := hs
    exact ⟨u, hu, o, rfl, ho⟩
  · rintro ⟨u, hu, o, rfl, ho⟩
    refine ⟨u, hu, _, ?_, rfl⟩
    rw [kstar_char_mul, mem_opt_char_mul]
    exact ⟨o, rfl, ho⟩

theorem nil_mem_segments : [] ∈ segments := mem_segments.2 ⟨[], nil_mem_segment, none, rfl, nofun⟩

/-- A leading slash follows an empty segment. -/
theorem slash_cons_mem_segments : '/' :: r ∈ segments ↔ r ∈ segments := by
  rw [mem_segments]
  constructor
  · rintro ⟨u, hu, o, heq, ho⟩
    rcases u with _ | ⟨c, u⟩
    · cases o with
      | none => cases heq
      | some r' =>
        obtain rfl := (List.cons.inj heq).2
        exact ho _ rfl
    · obtain rfl := (List.cons.inj heq).1
      exact absurd List.mem_cons_self (not_mem_of_segment hu (by simp))
  · intro hr
    exact ⟨[], nil_mem_segment, some r, rfl, forall_mem_some hr⟩

/-- The first segment is not empty if there is any text and no slash in front of it. -/
theorem mem_segmentNz_mul :
    t ∈ segmentNz * (char '/' * segment)∗ ↔ t ≠ [] ∧ t.head? ≠ some '/' ∧ t ∈ segments := by
  constructor
  · intro h
    obtain ⟨u, hu, s, hs, rfl⟩ := Language.mem_mul.1 h
    obtain ⟨hne, hu⟩ := mem_segmentNz.1 hu
    refine ⟨?_, ?_, Language.mem_mul.2 ⟨u, hu, s, hs, rfl⟩⟩
    · simp [hne]
    · obtain ⟨c, u, rfl⟩ := List.exists_cons_of_ne_nil hne
      intro hc
      obtain rfl := Option.some.inj hc
      exact absurd List.mem_cons_self (not_mem_of_segment hu (by simp))
  · rintro ⟨hne, hslash, h⟩
    obtain ⟨u, hu, s, hs, rfl⟩ := Language.mem_mul.1 h
    refine Language.mem_mul.2 ⟨u, mem_segmentNz.2 ⟨?_, hu⟩, s, hs, rfl⟩
    rintro rfl
    rw [kstar_char_mul, mem_opt, mem_char_mul] at hs
    rcases hs with rfl | ⟨r, -, rfl⟩
    · exact hne rfl
    · exact hslash rfl

/-! ### Paths -/

theorem mem_pathAbempty :
    t ∈ pathAbempty ↔ ∃ o : Option Text, t = (o.elim [] fun r => '/' :: r) ∧ ∀ r ∈ o, r ∈ segments := by
  unfold pathAbempty
  rw [kstar_char_mul, mem_opt_char_mul]
  rfl

theorem mem_pathAbsolute : t ∈ pathAbsolute ↔ ∃ r, t = '/' :: r ∧ r.head? ≠ some '/' ∧ r ∈ segments := by
  unfold pathAbsolute
  rw [mem_char_mul]
  simp only [mem_opt, mem_segmentNz_mul]
  constructor
  · rintro ⟨r, rfl | ⟨-, hslash, hr⟩, rfl⟩
    · exact ⟨[], rfl, nofun, nil_mem_segments⟩
    · exact ⟨r, rfl, hslash, hr⟩
  · rintro ⟨r, rfl, hslash, hr⟩
    refine ⟨r, ?_, rfl⟩
    by_cases hne : r = []
    · exact .inl hne
    · exact .inr ⟨hne, hslash, hr⟩

/-- Without an authority, a path is any segments that two slashes do not start. -/
theorem mem_path_iff : t ∈ pathAbsolute + pathRootless + pathEmpty ↔ ¬ ['/', '/'] <+: t ∧ t ∈ segments := by
  rw [Language.mem_add, Language.mem_add, mem_pathAbsolute]
  unfold pathRootless pathEmpty
  rw [mem_segmentNz_mul, Language.mem_one]
  constructor
  · rintro ((⟨r, rfl, hslash, hr⟩ | ⟨-, hslash, ht⟩) | rfl)
    · refine ⟨?_, slash_cons_mem_segments.2 hr⟩
      rintro ⟨s, hs⟩
      refine hslash ?_
      rw [← (List.cons.inj hs).2]
      rfl
    · refine ⟨?_, ht⟩
      rintro ⟨s, rfl⟩
      exact hslash rfl
    · exact ⟨by simp, nil_mem_segments⟩
  · rintro ⟨hslashes, ht⟩
    by_cases hnil : t = []
    · exact .inr hnil
    by_cases hslash : t.head? = some '/'
    · obtain ⟨r, rfl⟩ := List.head?_eq_some_iff.1 hslash
      refine .inl (.inl ⟨r, rfl, ?_, slash_cons_mem_segments.1 ht⟩)
      intro hr
      obtain ⟨s, rfl⟩ := List.head?_eq_some_iff.1 hr
      exact hslashes ⟨s, rfl⟩
    · exact .inl (.inr ⟨hnil, hslash, ht⟩)

/-! ### Hierarchical parts -/

theorem mem_hierPart :
    t ∈ hierPart ↔
      (∃ a ∈ authority, ∃ o : Option Text, t = '/' :: '/' :: a ++ (o.elim [] fun r => '/' :: r) ∧
        ∀ r ∈ o, r ∈ segments) ∨
      (¬ ['/', '/'] <+: t ∧ t ∈ segments) := by
  have hrule : hierPart = char '/' * (char '/' * (authority * pathAbempty)) +
      (pathAbsolute + pathRootless + pathEmpty) := by
    unfold hierPart
    simp only [mul_assoc, add_assoc]
  rw [hrule, Language.mem_add, mem_path_iff]
  simp only [mem_char_mul]
  simp only [Language.mem_mul, mem_pathAbempty]
  refine or_congr_left ?_
  constructor
  · rintro ⟨_, ⟨_, ⟨a, ha, _, ⟨o, rfl, ho⟩, rfl⟩, rfl⟩, rfl⟩
    exact ⟨a, ha, o, rfl, ho⟩
  · rintro ⟨a, ha, o, rfl, ho⟩
    exact ⟨_, ⟨_, ⟨a, ha, _, ⟨o, rfl, ho⟩, rfl⟩, rfl⟩, rfl⟩

theorem pchar_eq : pchar = unreserved + pctEncoded + subDelims + char '@' + char ':' := by
  have hone : oneOf [':', '@'] = char '@' + char ':' := by
    ext t
    show (∃ c ∈ [':', '@'], t = [c]) ↔ t = ['@'] ∨ t = [':']
    simp [or_comm]
  unfold pchar
  rw [hone]
  ac_rfl

/-- The first segment of a path without a scheme is one without a colon. -/
theorem mem_segmentNzNc : t ∈ segmentNzNc ↔ t ∈ segmentNz ∧ ':' ∉ t := by
  have hnil : [] ∉ unreserved + pctEncoded + subDelims + char '@' := by
    have h := nil_not_mem_pchar
    rw [pchar_eq, Language.mem_add, not_or] at h
    exact h.1
  have hcolon : ∀ y ∈ unreserved + pctEncoded + subDelims + char '@', ':' ∉ y := by
    have hrule : unreserved + pctEncoded + subDelims + char '@' =
        unreserved + subDelims + char '@' + pctEncoded := by
      ac_rfl
    have hclass := isClass_registeredName.add (isClass_char '@')
    rw [hrule]
    intro y hy hc
    rcases (Language.mem_add _ _ _).1 hy with hy | hy
    · obtain ⟨d, rfl, hd⟩ := (hclass.mem_iff y).1 hy
      rw [← List.mem_singleton.1 hc] at hd
      exact absurd hd (by decide)
    · obtain ⟨x, y, a, b, rfl, hx, hy⟩ := mem_pctEncoded.1 hy
      have hnone : hexValue? ':' = none := by decide
      simp only [List.mem_cons, List.not_mem_nil, or_false] at hc
      rcases hc with h | rfl | rfl
      · cases h
      · rw [hnone] at hx
        cases hx
      · rw [hnone] at hy
        cases hy
  unfold segmentNzNc
  rw [mem_many1 hnil, mem_kstar_add_char hcolon, ← pchar_eq, mem_segmentNz, and_assoc]
  rfl

theorem mem_pathNoscheme :
    t ∈ pathNoscheme ↔ t ∈ pathRootless ∧ RelativeRef.startsLikeScheme t = false := by
  unfold pathNoscheme pathRootless
  rw [Language.mem_mul, Language.mem_mul]
  constructor
  · rintro ⟨u, hu, s, hs, rfl⟩
    obtain ⟨hu, hcolon⟩ := mem_segmentNzNc.1 hu
    refine ⟨⟨u, hu, s, hs, rfl⟩, RelativeRef.startsLikeScheme_append_of_not_mem hcolon ?_⟩
    obtain ⟨o, rfl, -⟩ := mem_pathAbempty.1 hs
    cases o with
    | none => exact nofun
    | some r => exact forall_mem_some List.mem_cons_self
  · rintro ⟨⟨u, hu, s, hs, rfl⟩, hstart⟩
    refine ⟨u, mem_segmentNzNc.2 ⟨hu, ?_⟩, s, hs, rfl⟩
    intro hm
    obtain ⟨name, rest, rfl⟩ := List.append_of_mem hm
    have htrue : RelativeRef.startsLikeScheme (name ++ ':' :: rest ++ s) = true := by
      refine RelativeRef.startsLikeScheme_iff.2 ⟨name, rest ++ s, by simp, ?_⟩
      intro c hc hsep
      exact not_mem_of_segment (mem_segmentNz.1 hu).2 hsep (List.mem_append_left _ hc)
    rw [hstart] at htrue
    cases htrue

/-- What a relative reference may consist of before its query is what may follow a scheme and starts like none. -/
theorem mem_relativePart_iff :
    t ∈ relativePart ↔ t ∈ hierPart ∧ RelativeRef.startsLikeScheme t = false := by
  have hslash : ∀ r, RelativeRef.startsLikeScheme ('/' :: r) = false := fun r => rfl
  have hauthority : t ∈ char '/' * char '/' * authority * pathAbempty →
      RelativeRef.startsLikeScheme t = false := by
    rw [mul_assoc, mul_assoc, mem_char_mul]
    rintro ⟨r, -, rfl⟩
    exact hslash r
  have habsolute : t ∈ pathAbsolute → RelativeRef.startsLikeScheme t = false := by
    intro h
    obtain ⟨r, rfl, -⟩ := mem_pathAbsolute.1 h
    exact hslash r
  unfold relativePart hierPart
  simp only [Language.mem_add, mem_pathNoscheme]
  constructor
  · rintro (((h | h) | ⟨h, hstart⟩) | h)
    · exact ⟨.inl (.inl (.inl h)), hauthority h⟩
    · exact ⟨.inl (.inl (.inr h)), habsolute h⟩
    · exact ⟨.inl (.inr h), hstart⟩
    · refine ⟨.inr h, ?_⟩
      have hnil : t = [] := h
      rw [hnil]
      rfl
  · rintro ⟨(((h | h) | h) | h), hstart⟩
    · exact .inl (.inl (.inl h))
    · exact .inl (.inl (.inr h))
    · exact .inl (.inr ⟨h, hstart⟩)
    · exact .inr h

/-! ### Queries and fragments -/

/-- What a query and a fragment may follow. -/
theorem mem_mul_tails :
    t ∈ l * opt (char '?' * query) * opt (char '#' * fragment) ↔ ∃ (front : Text) (q f : Option Text),
      t = front ++ (q.elim [] fun q => '?' :: q) ++ (f.elim [] fun f => '#' :: f) ∧ front ∈ l ∧
        (∀ u ∈ q, u ∈ query) ∧ ∀ u ∈ f, u ∈ fragment := by
  simp only [Language.mem_mul, mem_opt_char_mul]
  constructor
  · rintro ⟨_, ⟨front, hl, _, ⟨q, rfl, hq⟩, rfl⟩, _, ⟨f, rfl, hf⟩, rfl⟩
    exact ⟨front, q, f, rfl, hl, hq, hf⟩
  · rintro ⟨front, q, f, rfl, hl, hq, hf⟩
    exact ⟨_, ⟨front, hl, _, ⟨q, rfl, hq⟩, rfl⟩, _, ⟨f, rfl, hf⟩, rfl⟩

theorem mem_uri :
    t ∈ uri ↔ ∃ name ∈ scheme, ∃ rest ∈ hierPart * opt (char '?' * query) * opt (char '#' * fragment),
      t = name ++ ':' :: rest := by
  unfold uri
  simp only [mul_assoc, mem_mul_char_mul]

/-- A relative reference is what may follow a scheme and starts like none: no colon counts after the first `?` or `#`. -/
theorem mem_relativeRef :
    t ∈ relativeRef ↔ t ∈ hierPart * opt (char '?' * query) * opt (char '#' * fragment) ∧
      RelativeRef.startsLikeScheme t = false := by
  have hfront (front : Text) (q f : Option Text) : RelativeRef.startsLikeScheme
      (front ++ (q.elim [] fun q => '?' :: q) ++ (f.elim [] fun f => '#' :: f)) =
        RelativeRef.startsLikeScheme front := by
    rw [List.append_assoc]
    exact RelativeRef.startsLikeScheme_append (RelativeRef.head?_tails q f (fun u => u) fun u => u)
  unfold relativeRef
  rw [mem_mul_tails, mem_mul_tails]
  constructor
  · rintro ⟨front, q, f, rfl, hl, hq, hf⟩
    obtain ⟨hl, hstart⟩ := mem_relativePart_iff.1 hl
    exact ⟨⟨front, q, f, rfl, hl, hq, hf⟩, (hfront front q f).trans hstart⟩
  · rintro ⟨⟨front, q, f, rfl, hl, hq, hf⟩, hstart⟩
    exact ⟨front, q, f, rfl, mem_relativePart_iff.2 ⟨hl, (hfront front q f).symm.trans hstart⟩, hq, hf⟩

end GenericUri.Grammar
