import GenericUri.Proofs.SegmentText

/-!
# StoredText — what is stored decodes

Queries, fragments and value segments are stored as text, and what a text stands for is made out without complaint
(`Percent.value`): where it does not decode, U+FFFD replaces what is no character.

This never happens to stored text.  However it came about, even from an encoding that writes whatever it likes, it
decodes over the characters of its component, and its value is what it decodes to (`decode_stored_of_reachable`).
-/

namespace GenericUri

/-! ### Reading without checks -/

namespace Percent

variable {allowed : CharSet} {t s : Text}

theorem looseOctets_raw {c : Char} (h : c ≠ '%') (t : Text) :
    looseOctets (c :: t) = Utf8.encodeChar c ++ looseOctets t := by
  rw [looseOctets.eq_def]
  split
  · next he => cases he
  · next he => exact absurd (List.cons.inj he).1 h
  · next he =>
    cases he
    rfl

/-- Raw characters and escapes are taken for what they are. -/
theorem looseOctets_of_proper (h : ∀ tk ∈ tokens t, tk.Proper) : looseOctets t = (tokens t).flatMap Token.bytes := by
  fun_induction tokens t with
  | case1 => rfl
  | case2 x y t a b hb ha ih =>
    have hx : x ≠ '+' := by
      rintro rfl
      cases ha
    have hoctet : looseOctet? x y = some (UInt8.ofNat (16 * a + b)) := by
      rw [looseOctet?, if_neg hx, ha, hb]
      rfl
    rw [looseOctets, hoctet, List.flatMap_cons, ← ih (List.forall_mem_cons.1 h).2]
    rfl
  | case3 x y t hno ih => exact (List.forall_mem_cons.1 h).1.elim
  | case4 c t hno ih =>
    obtain ⟨hc, ht⟩ := List.forall_mem_cons.1 h
    by_cases hp : c = '%'
    · rw [if_pos hp] at hc
      exact hc.elim
    · rw [if_neg hp, looseOctets_raw hp, ih ht]
      rfl

/-- Text that decodes is made out to be what it decodes to. -/
theorem decodeLossy_of_decode (h : decode allowed t = .ok s) : decodeLossy t = s := by
  obtain ⟨-, -, hs⟩ := decode_eq_ok_iff.1 h
  rw [decodeLossy, looseOctets_of_proper (proper_of_decode h), ← hs, Utf8.decodeLossy_encode]

/-- An octet that is no text, and a plus sign that passes for a digit. -/
example : value "%FF".toList = ['\uFFFD'] ∧ value "%+4%41".toList = ['\u0004', 'A'] := by decide

/-- The value of text that decodes is what it decodes to, over any set, and what it is made out to be. -/
theorem decode_value (h : decode allowed t = .ok s) :
    decode allowed t = .ok (value t) ∧ decode .everything t = .ok (value t) ∧ decodeLossy t = value t := by
  rw [value_of_decode h]
  exact ⟨h, decode_mono (fun c _ => CharSet.contains_everything c) h, decodeLossy_of_decode h⟩

end Percent

/-! ### Stored text -/

theorem Tail.decode_text {kind : TailKind} {q : Tail kind} (h : ReadsBack q) :
    ∃ v, Percent.decode .queryOrFragment q.text = .ok v :=
  (Percent.canonicalise_eq_ok_iff.1 (canonicalise_of_read h)).1

theorem Segment.decode_text {t : Text} (h : ReadsBack (Segment.value t)) : ∃ v, Percent.decode .pchar t = .ok v := by
  obtain ⟨-, -, v, hv, -⟩ := normalise_of_read_value h
  exact (Percent.normalise_eq_ok_iff.1 hv).1

/-- However a query, a fragment or a value segment was made, its text decodes over the characters of its component, and
so it does over any characters at all; its value is what it decodes to, and best effort would find no other.  A query or
fragment made of a text has that text as its value. -/
theorem decode_stored_of_reachable :
    (∀ {kind : TailKind} (q : Tail kind), Reachable (.tail q) →
        Percent.decode .queryOrFragment q.text = .ok q.value ∧ Percent.decode .everything q.text = .ok q.value ∧
          Percent.decodeLossy q.text = q.value) ∧
      (∀ t : Text, Reachable (.segment (.value t)) →
        ∃ v, (Segment.value t).value? = some v ∧
          Percent.decode .pchar t = .ok v ∧ Percent.decode .everything t = .ok v ∧ Percent.decodeLossy t = v) ∧
        ∀ (kind : TailKind) (v : Text), (Tail.ofValue v : Tail kind).value = v := by
  refine ⟨?_, ?_, ?_⟩
  · intro kind q h
    obtain ⟨v, hv⟩ := Tail.decode_text h.wellFormed
    exact Percent.decode_value hv
  · intro t h
    obtain ⟨v, hv⟩ := Segment.decode_text h.wellFormed
    exact ⟨Percent.value t, rfl, Percent.decode_value hv⟩
  · intro kind v
    exact Percent.value_of_decode (Percent.decode_encode .queryOrFragment v)

/-- An encoding that writes what it is given: in a query, and in segments where a run of escapes is cut in two by a raw
tilde or dots are held escaped. -/
theorem decode_stored_of_verbatim :
    let q : Query := ⟨"%C3%A9%2B~".toList⟩
    let t := "%C3%A9~%C3%A9".toList
    let dots := "%2E%2E".toList
    ((Tail.encodeWith .verbatim "%c3%a9%2b~".toList = .ok q ∧ Reachable (.tail q)) ∧
        (Segment.encodeWith .verbatim "%c3%a9%7e%c3%a9".toList = .ok (.value t) ∧ Reachable (.segment (.value t))) ∧
          Segment.encodeWith .verbatim "..".toList = .ok (.value dots) ∧ Reachable (.segment (.value dots))) ∧
      (Percent.decode .queryOrFragment q.text = .ok q.value ∧ q.value = "é+~".toList) ∧
        (Percent.decode .pchar t = .ok "é~é".toList ∧ (Segment.value t).value? = some "é~é".toList) ∧
          (Percent.decode .pchar dots = .ok "..".toList ∧ (Segment.value dots).value? = some "..".toList) ∧
            (Tail.ofValue "100%#".toList : Fragment).value = "100%#".toList := by
  intro q t dots
  have hq : Tail.encodeWith .verbatim "%c3%a9%2b~".toList = .ok q := by decide
  have ht : Segment.encodeWith .verbatim "%c3%a9%7e%c3%a9".toList = .ok (.value t) := by decide
  have hdots : Segment.encodeWith .verbatim "..".toList = .ok (.value dots) := by decide
  have hqr : Reachable (.tail q) := .tailEncoded hq
  have htr : Reachable (.segment (.value t)) := .segmentEncoded ht
  have hdotsr : Reachable (.segment (.value dots)) := .segmentEncoded hdots
  have hdq : Percent.decode .queryOrFragment q.text = .ok "é+~".toList := by decide
  have hdt : Percent.decode .pchar t = .ok "é~é".toList := by decide
  have hddots : Percent.decode .pchar dots = .ok "..".toList := by decide
  obtain ⟨htail, hsegment, hvalue⟩ := decode_stored_of_reachable
  have hqv := (htail q hqr).1
  obtain ⟨v, htv, hdtv, -⟩ := hsegment t htr
  obtain ⟨w, hdotsv, hddotsv, -⟩ := hsegment dots hdotsr
  obtain rfl : v = "é~é".toList := Except.ok.inj (hdtv.symm.trans hdt)
  obtain rfl : w = "..".toList := Except.ok.inj (hddotsv.symm.trans hddots)
  exact ⟨⟨⟨hq, hqr⟩, ⟨ht, htr⟩, hdots, hdotsr⟩, ⟨hqv, Except.ok.inj (hqv.symm.trans hdq)⟩, ⟨hdt, htv⟩,
    ⟨hddots, hdotsv⟩, hvalue .fragment "100%#".toList⟩

end GenericUri
