import GenericUri.Proofs.Components
import GenericUri.Proofs.Respelling

/-!
# TypedSegment — payloads carried by segments

A segment holds its text without needless escapes, and not as the encoding wrote it.  The payload is read back if no
unreserved character means anything but itself to the encoding; `decodeWith_eq_ok_iff_of_encodeWith` says exactly when
it is.  A text that would read as a step is escaped throughout, and then it is read as that text alone, whatever the
encoding wrote.
-/

namespace GenericUri.Segment

variable {n : Nat} {e : Encoding n} {allowed : CharSet} {v : Payload n} {s : Segment} {t u : Text}

/-- The encoded text is kept in its normal spelling, guarded. -/
theorem encodeWith_eq_ok_iff :
    encodeWith e v = .ok s ↔ ∃ u, Percent.normalise .pchar (e.encode v) = .ok u ∧ guarded u = s := by
  rw [encodeWith, ofEncoded, mapError_eq_ok_iff, map_eq_ok_iff]

/-- The values `.` and `..` are read as these texts alone, by any encoding. -/
theorem decodeWith_guarded_step (ho : Encoding.Over allowed e) (hs : e.Separate) (h : u = ['.'] ∨ u = ['.', '.']) :
    decodeWith e (guarded u) = .ok (.leaf u) := by
  rw [guarded, if_pos h]
  exact Encoding.decode_encode_nothing ho hs u

theorem decodeWith_guarded_of_not_step (h : ¬ (u = ['.'] ∨ u = ['.', '.'])) : decodeWith e (guarded u) = e.decode u := by
  rw [guarded, if_neg h]
  rfl

/-- A text of unreserved characters is read as that text alone if each of them is. -/
theorem decode_of_readsItself (ho : Encoding.Over allowed e) (hs : e.Separate)
    (hu : ∀ c ∈ t, CharSet.unreserved.contains c = true)
    (h : ∀ c, CharSet.unreserved.contains c = true → e.ReadsItself c) : e.decode t = .ok (.leaf t) := by
  -- the text is what is left of its escapes, which are all needless
  have hnormal : Percent.normalise .pchar (Percent.encode .nothing t) = .ok t := Percent.normalise_encode_nothing hu
  obtain ⟨-, ht⟩ := Percent.normalise_eq_ok_iff.1 hnormal
  have hp := Percent.proper_of_decode (Percent.decode_encode_nothing .pchar t)
  have hdec := Encoding.decode_encode_nothing ho hs t
  rw [(Percent.spelled_encode .nothing t).text_tokens] at hdec
  have hplain := (Encoding.decode_plainText_iff_readsItself ho hs hp hdec).2 fun b _ hb => h _ hb
  rwa [← ht] at hplain

/-- When a payload is read back from its segment: where the segment holds the value `.` or `..`, if the payload is that
text alone, and otherwise if each unreserved character that the encoding wrote as an escape is read as itself. -/
theorem decodeWith_eq_ok_iff_of_encodeWith (hb : e.Built) (hs : e.Separate) (hv : v.Full)
    (h : encodeWith e v = .ok s) :
    (∀ w, w = ['.'] ∨ w = ['.', '.'] → s = ofValue w → (decodeWith e s = .ok v ↔ v = .leaf w)) ∧
      ((∀ w, w = ['.'] ∨ w = ['.', '.'] → s ≠ ofValue w) →
        (decodeWith e s = .ok v ↔
          ∀ b, .octet b ∈ Percent.tokens (e.encode v) → CharSet.unreserved.contains (Char.ofNat b.toNat) = true →
            e.ReadsItself (Char.ofNat b.toNat))) ∧
      ((∀ c, CharSet.unreserved.contains c = true → e.ReadsItself c) → decodeWith e s = .ok v) := by
  obtain ⟨allowed, ho⟩ := hb.over
  obtain ⟨u, hu, rfl⟩ := encodeWith_eq_ok_iff.1 h
  obtain ⟨⟨t, ht⟩, hu⟩ := Percent.normalise_eq_ok_iff.1 hu
  -- what the normal spelling says
  have hnormal : e.decode u = .ok v ↔
      ∀ b, .octet b ∈ Percent.tokens (e.encode v) → CharSet.unreserved.contains (Char.ofNat b.toNat) = true →
        e.ReadsItself (Char.ofNat b.toNat) := by
    have hdec := Encoding.decode_encode_of_over ho hs hv
    rw [(Encoding.spelled_encode ho hs v).text_tokens] at hdec
    rw [hu]
    exact Encoding.decode_plainText_iff_readsItself ho hs (Percent.proper_of_decode ht) hdec
  refine ⟨?_, ?_, ?_⟩
  · intro w hw hws
    have hstep : ofValue w = guarded w := by rcases hw with rfl | rfl <;> rfl
    rw [hws, hstep, decodeWith_guarded_step ho hs hw, Except.ok.injEq]
    exact eq_comm
  · intro hne
    have hstep : ¬ (u = ['.'] ∨ u = ['.', '.']) := by
      intro hw
      refine hne u hw ?_
      rcases hw with rfl | rfl <;> rfl
    rw [decodeWith_guarded_of_not_step hstep, hnormal]
  · intro hself
    have hdec := hnormal.2 fun b _ hb => hself _ hb
    by_cases hstep : u = ['.'] ∨ u = ['.', '.']
    · have hdots : ∀ c ∈ u, CharSet.unreserved.contains c = true := by
        rcases hstep with rfl | rfl <;> exact forall_mem_of_all (by decide)
      rw [decodeWith_guarded_step ho hs hstep, ← decode_of_readsItself ho hs hdots hself, hdec]
    · rw [decodeWith_guarded_of_not_step hstep, hdec]

/-- A hyphen may delimit as long as no text in the list has one.  The tilde, which is escaped needlessly, is read as
itself. -/
theorem decodeWith_encodeWith_words :
    let v : Payload 1 := ["a b".toList, "~".toList]
    ∃ e s, Encoding.delimitedBy '-' (.literal ['~'] (.percent .pchar)) = .ok e ∧
      (e.Built ∧ e.Separate ∧ v.Full ∧ encodeWith e v = .ok s) ∧
        e.encode v = "a%20b-%7E".toList ∧ s = .value "a%20b-~".toList ∧ decodeWith e s = .ok v := by
  intro v
  have hb := @Encoding.Built.delimitedBy 0 '-' _ _ (.literal ['~'] (.percent .pchar)) rfl
  have hv : v.Full := by simp [v, Payload.Full]
  refine ⟨_, .value "a%20b-~".toList, rfl, ⟨hb, ⟨by decide, forall_mem_of_all (by decide)⟩, hv, rfl⟩, rfl, rfl, ?_⟩
  have hne : ∀ w, w = ['.'] ∨ w = ['.', '.'] → Segment.value "a%20b-~".toList ≠ ofValue w := by
    rintro w (rfl | rfl) <;> decide
  refine ((decodeWith_eq_ok_iff_of_encodeWith hb ⟨by decide, forall_mem_of_all (by decide)⟩ hv rfl).2.1 hne).2 ?_
  intro b hm hu
  have htokens : .octet b ∈ [.raw 'a', .octet 0x20, .raw 'b', .raw '-', Percent.Token.octet 0x7E] := hm
  simp only [List.mem_cons, List.not_mem_nil, or_false, reduceCtorEq, false_or, Percent.Token.octet.injEq] at htokens
  rcases htokens with rfl | rfl
  · exact absurd hu (by decide)
  · rfl

/-- A hyphen in a text of such a list comes to delimit. -/
theorem decodeWith_encodeWith_hyphen :
    let v : Payload 1 := ["a-b".toList]
    ∃ e s, Encoding.delimitedBy '-' (.percent .pchar) = .ok e ∧
      (e.Built ∧ e.Separate ∧ v.Full ∧ e.decode (e.encode v) = .ok v ∧ encodeWith e v = .ok s) ∧
        decodeWith e s = .ok ["a".toList, "b".toList] ∧ decodeWith e s ≠ .ok v := by
  intro v
  have hb := @Encoding.Built.delimitedBy 0 '-' _ _ (.percent .pchar) rfl
  have hv : v.Full := by simp [v, Payload.Full]
  refine ⟨_, .value "a-b".toList, rfl, ⟨hb, ⟨by decide, forall_mem_of_all (by decide)⟩, hv, rfl, rfl⟩, rfl, ?_⟩
  intro h
  have hlists : (["a".toList, "b".toList] : Payload 1) = v := Except.ok.inj h
  exact absurd (congrArg List.length hlists) (by decide)

end GenericUri.Segment
