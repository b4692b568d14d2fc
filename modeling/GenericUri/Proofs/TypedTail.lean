import GenericUri.Proofs.Canonical
import GenericUri.Proofs.Respelling

/-!
# TypedTail — payloads carried by queries and fragments

A query or a fragment holds its text in canonical spelling.  What an encoding writes is in that spelling already
(`Encoding.spelled_encode`): hex digits are in upper case, and no run of escapes goes on across a separator.  So the text
is kept as it was written, and the payload is read back from it, if the raw characters may stand in a query at all;
`decodeWith_eq_ok_of_encodeWith` says that nothing else is asked of the text.
-/

namespace GenericUri.Tail

variable {n : Nat} {e : Encoding n} {v : Payload n} {kind : TailKind} {q : Tail kind}

/-- The encoded text is kept in its canonical spelling. -/
theorem encodeWith_eq_ok_iff :
    encodeWith e v = .ok q ↔ Percent.canonicalise .queryOrFragment (e.encode v) = .ok q.text := by
  rw [encodeWith, ofEncoded, mapError_eq_ok_iff, map_eq_ok_iff]
  constructor
  · rintro ⟨u, hu, rfl⟩
    exact hu
  · exact fun h => ⟨q.text, h, rfl⟩

/-- A payload makes a query or a fragment if the characters that its text has outside escapes may stand there.  The text
is kept as the encoding wrote it, and the payload is read back. -/
theorem decodeWith_eq_ok_of_encodeWith (hb : e.Built) (hs : e.Separate) (hv : v.Full) :
    ∃ ts, Percent.ReadAs (e.encode v) ts ∧ ∀ kind : TailKind,
      ((∃ q : Tail kind, encodeWith e v = .ok q) ↔ ∀ c, .raw c ∈ ts → CharSet.queryOrFragment.contains c = true) ∧
        ∀ q : Tail kind, encodeWith e v = .ok q → q.text = e.encode v ∧ decodeWith e q = .ok v := by
  obtain ⟨allowed, ho⟩ := hb.over
  have hspelled := Encoding.spelled_encode ho hs v
  refine ⟨Percent.tokens (e.encode v), Percent.readAs_tokens hspelled.proper, fun kind => ⟨?_, ?_⟩⟩
  · constructor
    · rintro ⟨q, hq⟩
      exact (hspelled.canonicalise_eq_ok_iff.1 (encodeWith_eq_ok_iff.1 hq)).1
    · intro hraw
      exact ⟨⟨e.encode v⟩, encodeWith_eq_ok_iff.2 (hspelled.canonicalise_eq_ok_iff.2 ⟨hraw, rfl⟩)⟩
  · intro q hq
    have htext : q.text = e.encode v := (hspelled.canonicalise_eq_ok_iff.1 (encodeWith_eq_ok_iff.1 hq)).2
    refine ⟨htext, ?_⟩
    rw [decodeWith, htext]
    exact Encoding.decode_encode_of_built hb hs hv

/-- Fields over the set of all characters: accents are written raw, which a query does not take, and the sign of escapes
is not. -/
theorem decodeWith_eq_ok_of_encodeWith_fields :
    let v : Payload 2 := [["a b".toList, "100%+".toList], ["&".toList]]
    let w : Payload 2 := [["é".toList]]
    ∃ word fields pairs, Encoding.substituting ' ' '+' (.percent .everything) = .ok word ∧
      Encoding.delimitedBy '=' word = .ok fields ∧ Encoding.delimitedBy '&' fields = .ok pairs ∧
        (pairs.Built ∧ pairs.Separate ∧ v.Full ∧ w.Full) ∧
          (∃ q : Query, encodeWith pairs v = .ok q ∧ q.text = "a+b=100%25%2B&%26".toList ∧ decodeWith pairs q = .ok v) ∧
            ¬ ∃ q : Query, encodeWith pairs w = .ok q := by
  intro v w
  have hword := @Encoding.Built.substituting ' ' '+' _ _ (.percent .everything) rfl
  have hfields := @Encoding.Built.delimitedBy 0 '=' _ _ hword rfl
  have hb := @Encoding.Built.delimitedBy 1 '&' _ _ hfields rfl
  have hv : v.Full := by simp [v, Payload.Full]
  have hw : w.Full := by simp [w, Payload.Full]
  refine ⟨_, _, _, rfl, rfl, rfl, ⟨hb, ⟨by decide, forall_mem_of_all (by decide)⟩, hv, hw⟩, ?_, ?_⟩
  · obtain ⟨ts, -, h⟩ := decodeWith_eq_ok_of_encodeWith hb ⟨by decide, forall_mem_of_all (by decide)⟩ hv
    obtain ⟨-, hdecode⟩ := (h .query).2 ⟨"a+b=100%25%2B&%26".toList⟩ rfl
    exact ⟨_, rfl, rfl, hdecode⟩
  · obtain ⟨ts, hts, h⟩ := decodeWith_eq_ok_of_encodeWith hb ⟨by decide, forall_mem_of_all (by decide)⟩ hw
    intro hq
    have hraw : CharSet.queryOrFragment.contains 'é' = true := by
      refine (h .query).1.1 hq 'é' ?_
      rw [← hts.tokens_eq]
      decide
    exact absurd hraw (by decide)

end GenericUri.Tail
