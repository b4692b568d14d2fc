import GenericUri.Proofs.Canonical
import GenericUri.Proofs.Reachable

/-!
# SegmentText — what the text of a segment tells

However a segment is made, its text is in canonical spelling over the characters of a path (`CanonicalOver`) and is read
as that segment.  So the text is `.` or `..` exactly if the segment is a step: a value with one of these texts is held
escaped (`parse_text_of_reachable_segment`).  A segment made of a text holds it in an encoding of its own
(`Segment.ofValue_eq_encode`) and stands for that text, and no other text makes it.
-/

namespace GenericUri

namespace Percent

variable {allowed : CharSet} {t u : Text} {ts : List Token}

/-- Text of raw characters of the set and of escapes with their digits in upper case. -/
inductive CanonicalOver (allowed : CharSet) : Text → Prop
  | nil : CanonicalOver allowed []
  | raw {c : Char} {t : Text} (hp : c ≠ '%') (hc : allowed.contains c = true) (h : CanonicalOver allowed t) :
      CanonicalOver allowed (c :: t)
  | escape {x y : Char} {t : Text} (hx : CharSet.hexDigit.contains x = true) (hy : CharSet.hexDigit.contains y = true)
      (h : CanonicalOver allowed t) : CanonicalOver allowed ('%' :: x :: y :: t)

/-- Symbols that fit the set are written in canonical spelling over it. -/
theorem canonicalOver_flatMap_text (hp : ∀ tk ∈ ts, tk.Proper) (hf : ∀ tk ∈ ts, tk.Fits allowed) :
    CanonicalOver allowed (ts.flatMap Token.text) := by
  induction ts with
  | nil => exact .nil
  | cons tk ts ih =>
    obtain ⟨hp, hps⟩ := List.forall_mem_cons.1 hp
    obtain ⟨hf, hfs⟩ := List.forall_mem_cons.1 hf
    cases tk with
    | raw c => exact .raw hp hf (ih hps hfs)
    | octet b =>
      have hb := b.toNat_lt
      exact .escape (contains_hexDigit (by omega)) (contains_hexDigit (by omega)) (ih hps hfs)
    | stray => exact hf.elim

theorem canonicalOver_encode_nothing (allowed : CharSet) (t : Text) : CanonicalOver allowed (encode .nothing t) := by
  have hd := decode_encode_nothing allowed t
  obtain ⟨-, htext⟩ := canonicalise_eq_ok_iff.1 (canonicalise_encode .nothing t)
  rw [htext]
  exact canonicalOver_flatMap_text (proper_of_decode hd) (decode_eq_ok_iff.1 hd).1

/-- The normal spelling is canonical, over a set with all unreserved characters. -/
theorem canonicalOver_of_normalise (hu : ∀ c, CharSet.unreserved.contains c = true → allowed.contains c = true)
    (h : normalise allowed t = .ok u) : CanonicalOver allowed u := by
  obtain ⟨⟨s, hs⟩, rfl⟩ := normalise_eq_ok_iff.1 h
  rw [flatMap_plainText]
  refine canonicalOver_flatMap_text (proper_map_plain (proper_of_decode hs)) ?_
  exact List.forall_mem_map.2 fun tk htk => ((decode_eq_ok_iff.1 hs).1 tk htk).plain hu

end Percent

namespace Segment

variable {s : Segment} {t : Text}

theorem canonicalOver_guarded (h : Percent.normalise .pchar t = .ok t) :
    Percent.CanonicalOver .pchar (guarded t).text := by
  unfold guarded
  split
  · exact Percent.canonicalOver_encode_nothing .pchar t
  · exact Percent.canonicalOver_of_normalise pchar_of_unreserved h

/-- What is read back is in canonical spelling. -/
theorem canonicalOver_text (h : ReadsBack s) : Percent.CanonicalOver .pchar s.text := by
  cases s with
  | dot => exact .raw (by decide) (by decide) .nil
  | dotDot => exact .raw (by decide) (by decide) (.raw (by decide) (by decide) .nil)
  | value t =>
    obtain ⟨-, -, v, hv, hg⟩ := normalise_of_read_value h
    rw [← hg]
    exact canonicalOver_guarded (Percent.normalise_normalise pchar_of_unreserved hv)

/-- What is read back is a step if its text is that of one. -/
theorem isStep_iff_text (h : ReadsBack s) : s = .dot ∨ s = .dotDot ↔ s.text = ['.'] ∨ s.text = ['.', '.'] := by
  cases s with
  | dot => exact iff_of_true (.inl rfl) (.inl rfl)
  | dotDot => exact iff_of_true (.inr rfl) (.inr rfl)
  | value t =>
    obtain ⟨h1, h2⟩ := text_ne_step h
    refine iff_of_false ?_ (not_or.2 ⟨h1, h2⟩)
    rintro (hs | hs) <;> cases hs

/-- A text is held in an encoding of its own: over the characters of a path, but for the literals `.` and `..`, which are
escaped throughout. -/
theorem ofValue_eq_encode (v : Text) :
    ofValue v = value (Encoding.encode (.literal ['.'] (.literal ['.', '.'] (.percent .pchar))) v) := by
  by_cases hv : v = ['.'] ∨ v = ['.', '.']
  · rcases hv with rfl | rfl <;> rfl
  · -- dots are written as they are, so no other text is written like a step
    have hstep : ¬ (Percent.encode .pchar v = ['.'] ∨ Percent.encode .pchar v = ['.', '.']) := by
      rintro (h | h)
      · exact hv (.inl (Percent.encode_injective .pchar h))
      · exact hv (.inr (Percent.encode_injective .pchar h))
    obtain ⟨h1, h2⟩ := not_or.1 hv
    rw [ofValue, guarded, if_neg hstep, Encoding.encode, if_neg h1, Encoding.encode, if_neg h2, Encoding.encode]

/-- The segment made of a text stands for the text. -/
@[simp] theorem value?_ofValue (v : Text) : (ofValue v).value? = some v :=
  value?_guarded (Percent.decode_encode .pchar v)

theorem ofValue_injective : Function.Injective ofValue := by
  intro v w h
  have hvalue := congrArg value? h
  rw [value?_ofValue, value?_ofValue] at hvalue
  exact Option.some.inj hvalue

end Segment

/-- Whatever operations made a segment, its text is parsed as that segment, is `.` or `..` exactly if the segment is a
step, and is in canonical spelling, without a separator.  Texts make segments that stand for them, different ones for
different texts. -/
theorem parse_text_of_reachable_segment :
    (∀ s : Segment, Reachable (.segment s) →
        parse Segment s.text = .ok s ∧ (s = .dot ∨ s = .dotDot ↔ s.text = ['.'] ∨ s.text = ['.', '.']) ∧
          Percent.CanonicalOver .pchar s.text ∧ '/' ∉ s.text ∧ '?' ∉ s.text ∧ '#' ∉ s.text) ∧
      (∀ v, (Segment.ofValue v).value? = some v) ∧ Function.Injective Segment.ofValue := by
  refine ⟨?_, Segment.value?_ofValue, Segment.ofValue_injective⟩
  intro s h
  have hs : ReadsBack s := h.wellFormed
  exact ⟨readsBack_iff_parse.1 hs, Segment.isStep_iff_text hs, Segment.canonicalOver_text hs,
    Segment.not_mem_of_read hs (by simp), Segment.not_mem_of_read hs (by simp), Segment.not_mem_of_read hs (by simp)⟩

/-- Escaped dots make the value `..`, which is no step, and lower-case escapes make a segment with another text. -/
theorem parse_text_of_escaped_dots :
    let s := Segment.value "%2E%2E".toList
    let r := Segment.value "~%2C%C3%A9".toList
    (Segment.ofEncoded "%2e.".toList = .ok s ∧ Reachable (.segment s)) ∧
      (parse Segment "%7e%2c%c3%a9".toList = .ok r ∧ Reachable (.segment r)) ∧ Reachable (.segment .dotDot) ∧
        (parse Segment s.text = .ok s ∧ ¬ (s = .dot ∨ s = .dotDot) ∧ s = .ofValue "..".toList ∧
          s.value? = some "..".toList) ∧
          (parse Segment r.text = .ok r ∧ Percent.CanonicalOver .pchar r.text) ∧
            parse Segment (Segment.text .dotDot) = .ok .dotDot := by
  intro s r
  have hs : Reachable (.segment s) := .segmentEncoded (t := "%2e.".toList) (by decide)
  have hr : Reachable (.segment r) := .segmentParse (t := "%7e%2c%c3%a9".toList) (by decide)
  obtain ⟨hsegment, hvalue, -⟩ := parse_text_of_reachable_segment
  obtain ⟨hparse, hstep, -⟩ := hsegment s hs
  refine ⟨⟨by decide, hs⟩, ⟨by decide, hr⟩, .dotDot, ⟨hparse, ?_, rfl, hvalue "..".toList⟩,
    ⟨(hsegment r hr).1, (hsegment r hr).2.2.1⟩, (hsegment .dotDot .dotDot).1⟩
  exact mt hstep.1 (by decide)

end GenericUri
