import GenericUri.Proofs.Runs
import Mathlib.Data.List.Forall2

/-!
# Decoding — what is written over a set, what is accepted, and which fault is reported

`decode_encode_written` says how text is written over any set, and that it is read back.

The other direction is said of the text itself.  `Decodes` is text with what it stands for: raw characters, and between
them runs of escapes that are UTF-8.  `Reports` tells for each kind of error which texts it is about, and where it is.
`decode_eq_iff` says that decoding keeps to them: it accepts what decodes, and on every other text reports the fault that
is there to be reported.

While a text is read, there is a front that a raw character has closed (`Closed`) and a run of escapes after it that is
still open; `outcome_decodeTokens` carries these two along.
-/

namespace GenericUri.Percent

variable {allowed : CharSet} {position : Nat} {t u s r front run back : Text} {bytes cs : List UInt8} {c : Char}

/-! ### Escapes -/

theorem Escapes.append (h : Escapes t bytes) (h' : Escapes u cs) : Escapes (t ++ u) (bytes ++ cs) := by
  induction h with
  | nil => exact h'
  | cons hh hl _ ih => exact .cons hh hl ih

theorem Escapes.length_eq (h : Escapes t bytes) : t.length = 3 * bytes.length := by
  induction h with
  | nil => rfl
  | cons _ _ _ ih =>
    simp only [List.length_cons]
    omega

/-- Escapes end in an escape, if there are any. -/
theorem Escapes.eq_append (h : Escapes t bytes) : t = [] ∨ ∃ u e b, t = u ++ e ∧ Escapes e [b] := by
  induction h with
  | nil => exact .inl rfl
  | cons hh hl _ ih =>
    refine .inr ?_
    rcases ih with rfl | ⟨u, e, b, rfl, he⟩
    · exact ⟨[], _, _, rfl, .cons hh hl .nil⟩
    · exact ⟨'%' :: _ :: _ :: u, e, b, rfl, he⟩

theorem escapes_flatMap_escape (bytes : List UInt8) : Escapes (bytes.flatMap escape) bytes := by
  have htokens := tokens_escapes bytes []
  rw [List.append_nil, tokens_nil, List.append_nil] at htokens
  exact escapes_of_tokens htokens

/-! ### What is written -/

/-- How a character is written over a set: as it is, or as the escapes of its octets, with digits in upper case. -/
inductive Written (allowed : CharSet) (c : Char) : Text → Prop
  | raw (hp : c ≠ '%') (hc : allowed.contains c = true) : Written allowed c [c]
  | escaped {e : Text} (hc : c = '%' ∨ allowed.contains c = false) (he : Escapes e (Utf8.encodeChar c))
      (hupper : Text.asciiUpper e = e) : Written allowed c e

theorem asciiUpper_flatMap_escape (bytes : List UInt8) :
    Text.asciiUpper (bytes.flatMap escape) = bytes.flatMap escape := by
  have digit : ∀ n < 16, (hexDigit n).toUpper = hexDigit n := by decide
  induction bytes with
  | nil => rfl
  | cons b bytes ih =>
    have hlt := b.toNat_lt
    have hb : Text.asciiUpper (escape b) = escape b := by
      simp only [Text.asciiUpper, escape, List.map_cons, List.map_nil, digit (b.toNat / 16) (by omega),
        digit (b.toNat % 16) (by omega)]
      rfl
    rw [List.flatMap_cons, Text.asciiUpper, List.map_append]
    exact congrArg₂ (· ++ ·) hb ih

theorem written_encodeChar (allowed : CharSet) (c : Char) : Written allowed c (encodeChar allowed c) := by
  by_cases h : c ≠ '%' ∧ allowed.contains c = true
  · rw [encodeChar, if_pos h]
    exact .raw h.1 h.2
  · rw [encodeChar, if_neg h]
    refine .escaped ?_ (escapes_flatMap_escape _) (asciiUpper_flatMap_escape _)
    by_cases hp : c = '%'
    · exact .inl hp
    · exact .inr (Bool.eq_false_iff.2 fun hc => h ⟨hp, hc⟩)

/-- Over any set, what is written is read back, and every character is written as it is or escaped, the sign of escapes
and what is outside the set being escaped. -/
theorem decode_encode_written (allowed : CharSet) (t : Text) :
    decode allowed (encode allowed t) = .ok t ∧
      ∃ pieces, encode allowed t = List.flatten pieces ∧ List.Forall₂ (Written allowed) t pieces := by
  refine ⟨decode_encode allowed t, t.map (encodeChar allowed), List.flatMap_def, ?_⟩
  rw [List.forall₂_map_right_iff, List.forall₂_same]
  exact fun c _ => written_encodeChar allowed c

/-! ### Text that decodes, and faults -/

/-- Text as far as a raw character, or no text, and what it stands for.  In front of each raw character is a run of
escapes, maybe of none, whose octets are UTF-8. -/
inductive Closed (allowed : CharSet) : Text → Text → Prop
  | nil : Closed allowed [] []
  | raw {t s run r : Text} {c : Char} (h : Closed allowed t s) (hrun : Escapes run (Utf8.encode r)) (hp : c ≠ '%')
      (hc : allowed.contains c = true) : Closed allowed (t ++ run ++ [c]) (s ++ r ++ [c])

/-- Text over a set and what it stands for, the last run of escapes reaching to the end. -/
def Decodes (allowed : CharSet) (t s : Text) : Prop :=
  ∃ front run s' r, t = front ++ run ∧ s = s' ++ r ∧ Closed allowed front s' ∧ Escapes run (Utf8.encode r)

/-- What an error says of a text.  Positions count characters from 1. -/
def Reports (allowed : CharSet) (t : Text) : DecodingError → Prop
  -- two hex digits are missing; ahead of the sign is text that decodes, but for the run that ends there
  | .malformedEscape position => ∃ front run bytes back, t = front ++ run ++ '%' :: back ∧
      position = (front ++ run).length + 1 ∧ (∃ s, Decodes allowed front s) ∧ Escapes run bytes ∧
        ¬ ∃ x y rest a b, back = x :: y :: rest ∧ hexValue? x = some a ∧ hexValue? y = some b
  -- the run is maximal: no escape before it, and after it a raw character or nothing
  | .invalidUtf8 position => ∃ front run bytes back, t = front ++ run ++ back ∧ position = front.length + 1 ∧
      (∃ s, Decodes allowed front s) ∧ (¬ ∃ u e b, front = u ++ e ∧ Escapes e [b]) ∧ Escapes run bytes ∧
        (∀ c rest, back = c :: rest → c ≠ '%') ∧ ¬ IsUtf8 bytes
  | .illegalCharacter c position description => ∃ front back, t = front ++ c :: back ∧
      position = front.length + 1 ∧ description = allowed.description ∧ (∃ s, Decodes allowed front s) ∧
        c ≠ '%' ∧ allowed.contains c = false
  | .dotSegment => False

/-- What reading a text should come to. -/
def Outcome (allowed : CharSet) (t : Text) : Except DecodingError Text → Prop
  | .ok s => Decodes allowed t s
  | .error e => Reports allowed t e

theorem Closed.decodes (h : Closed allowed t s) : Decodes allowed t s :=
  ⟨t, [], s, [], (List.append_nil t).symm, (List.append_nil s).symm, h, .nil⟩

theorem Closed.tokens_append (h : Closed allowed front s) (t : Text) :
    tokens (front ++ t) = tokens front ++ tokens t := by
  induction h generalizing t with
  | nil => rfl
  | @raw front s run r c _ hrun hp _ ih =>
    have hsplit (t : Text) : tokens (front ++ run ++ [c] ++ t) =
        tokens front ++ ((Utf8.encode r).map .octet ++ .raw c :: tokens t) := by
      rw [List.append_assoc, List.append_assoc, ih, tokens_append_of_escapes hrun, List.singleton_append, tokens_raw hp]
    have hend := hsplit []
    rw [List.append_nil, tokens_nil] at hend
    rw [hsplit t, hend]
    simp

theorem Closed.endsPlain (h : Closed allowed front s) : EndsPlain (tokens front) := by
  cases h with
  | nil => exact .nil
  | @raw front _ run _ c h hrun hp _ =>
    rw [List.append_assoc, h.tokens_append, tokens_append_of_escapes hrun, tokens_raw hp, tokens_nil, ← List.append_assoc]
    exact .concat (fun b hb => Token.noConfusion hb) _

theorem Decodes.closed (h : Decodes allowed front s) (hlast : ¬ ∃ u e b, front = u ++ e ∧ Escapes e [b]) :
    Closed allowed front s := by
  obtain ⟨f, run, s', r, rfl, rfl, hf, hrun⟩ := h
  rcases hrun.eq_append with rfl | ⟨u, e, b, rfl, he⟩
  · have hr : r = [] := by
      have hlength := hrun.length_eq
      rw [List.length_nil] at hlength
      exact Utf8.encode_injective (List.eq_nil_of_length_eq_zero (by omega))
    rw [hr, List.append_nil, List.append_nil]
    exact hf
  · exact absurd ⟨f ++ u, e, b, (List.append_assoc _ _ _).symm, he⟩ hlast

/-! ### Every text has its outcome -/

theorem closeRun_cases (position : Nat) (bytes : List UInt8) :
    (∃ r, bytes = Utf8.encode r ∧ closeRun position bytes = .ok r) ∨
      ¬ IsUtf8 bytes ∧ closeRun position bytes = .error (.invalidUtf8 (position - 3 * bytes.length)) := by
  rw [closeRun]
  cases hd : Utf8.decode bytes with
  | none =>
    refine .inr ⟨?_, rfl⟩
    rintro ⟨s, rfl⟩
    rw [Utf8.decode_encode] at hd
    cases hd
  | some r => exact .inl ⟨r, Utf8.decode_eq_some_iff.1 hd, rfl⟩

theorem decodeTokens_raw (allowed : CharSet) (position : Nat) (r : Text) (c : Char) (ts : List Token) :
    decodeTokens allowed position (Utf8.encode r) (.raw c :: ts) =
      if allowed.contains c = true then (decodeTokens allowed (position + 1) [] ts).map (r ++ c :: ·)
      else .error (.illegalCharacter c position allowed.description) := by
  rw [decodeTokens, closeRun_encode]
  cases decodeTokens allowed (position + 1) [] ts <;> rfl

/-- What a run and a raw character stand for goes behind what stands in front of them. -/
theorem map_append_map_cons (s r : Text) (c : Char) (x : Except DecodingError Text) :
    (x.map (r ++ c :: ·)).map (s ++ ·) = x.map (s ++ r ++ [c] ++ ·) := by
  cases x with
  | ok back => simp [Except.map]
  | error e => rfl

section Open

variable (hfront : Closed allowed front s)
include hfront

theorem reports_malformedEscape (hrun : Escapes run bytes)
    (hback : ¬ ∃ x y rest a b, back = x :: y :: rest ∧ hexValue? x = some a ∧ hexValue? y = some b) :
    Reports allowed (front ++ run ++ '%' :: back) (.malformedEscape ((front ++ run).length + 1)) :=
  ⟨front, run, bytes, back, rfl, rfl, ⟨s, hfront.decodes⟩, hrun, hback⟩

theorem reports_invalidUtf8 (hrun : Escapes run bytes) (hback : ∀ c rest, back = c :: rest → c ≠ '%')
    (hno : ¬ IsUtf8 bytes) :
    Reports allowed (front ++ run ++ back) (.invalidUtf8 ((front ++ run).length + 1 - 3 * bytes.length)) := by
  refine ⟨front, run, bytes, back, rfl, ?_, ⟨s, hfront.decodes⟩, hfront.endsPlain.not_escape_last, hrun, hback, hno⟩
  rw [List.length_append, hrun.length_eq]
  omega

theorem reports_illegalCharacter (hrun : Escapes run (Utf8.encode r)) (hp : c ≠ '%') (hc : allowed.contains c = false) :
    Reports allowed (front ++ run ++ c :: back)
      (.illegalCharacter c ((front ++ run).length + 1) allowed.description) :=
  ⟨front ++ run, back, rfl, rfl, rfl, ⟨s ++ r, front, run, s, r, rfl, rfl, hfront, hrun⟩, hp, hc⟩

end Open

/-- After a closed front and the escapes of a run, the rest of a text leads to the outcome of the whole. -/
theorem outcome_decodeTokens (hfront : Closed allowed front s) (hrun : Escapes run bytes) (t : Text) :
    Outcome allowed (front ++ run ++ t)
      ((decodeTokens allowed ((front ++ run).length + 1) bytes (tokens t)).map (s ++ ·)) := by
  fun_induction tokens t generalizing front run bytes s with
  | case1 =>
    rw [decodeTokens]
    rcases closeRun_cases ((front ++ run).length + 1) bytes with ⟨r, rfl, hr⟩ | ⟨hno, hr⟩
    · rw [hr, List.append_nil]
      exact ⟨front, run, s, r, rfl, rfl, hfront, hrun⟩
    · rw [hr]
      refine reports_invalidUtf8 hfront hrun ?_ hno
      intro c rest h
      cases h
  | case2 h l t a b hl hh ih =>
    have hlonger := ih hfront (hrun.append (.cons hh hl .nil))
    have hposition : (front ++ (run ++ ['%', h, l])).length + 1 = (front ++ run).length + 1 + 3 := by
      simp only [List.length_append, List.length_cons, List.length_nil]
      omega
    have happend : front ++ (run ++ ['%', h, l]) ++ t = front ++ run ++ '%' :: h :: l :: t := by simp
    rwa [hposition, happend] at hlonger
  | case3 h l t hno ih =>
    refine reports_malformedEscape hfront hrun ?_
    rintro ⟨x, y, rest, a, b, heq, hx, hy⟩
    simp only [List.cons.injEq] at heq
    obtain ⟨rfl, rfl, -⟩ := heq
    exact hno a b hx hy
  | case4 c t hno ih =>
    by_cases hp : c = '%'
    · rw [if_pos hp]
      subst hp
      refine reports_malformedEscape hfront hrun ?_
      rintro ⟨x, y, rest, a, b, rfl, -⟩
      exact hno x y rest rfl rfl
    rw [if_neg hp]
    rcases closeRun_cases ((front ++ run).length + 1) bytes with ⟨r, rfl, -⟩ | ⟨hutf8, hr⟩
    · rw [decodeTokens_raw]
      by_cases hc : allowed.contains c = true
      · have hnext := ih (hfront.raw hrun hp hc) .nil
        have hposition : (front ++ run ++ [c] ++ []).length = (front ++ run).length + 1 := by
          rw [List.append_nil, List.length_append, List.length_singleton]
        rw [hposition, List.append_nil, List.append_assoc _ [c], List.singleton_append] at hnext
        rwa [if_pos hc, map_append_map_cons]
      · rw [if_neg hc]
        exact reports_illegalCharacter hfront hrun hp (Bool.eq_false_iff.2 hc)
    · rw [decodeTokens, hr]
      refine reports_invalidUtf8 hfront hrun ?_ hutf8
      rintro d rest heq
      rw [← (List.cons.inj heq).1]
      exact hp

theorem outcome_decode (allowed : CharSet) (t : Text) : Outcome allowed t (decode allowed t) := by
  have hid : (decode allowed t).map ([] ++ ·) = decode allowed t := congrFun Except.map_id _
  have h : Outcome allowed t ((decode allowed t).map ([] ++ ·)) := outcome_decodeTokens .nil .nil t
  rwa [hid] at h

/-! ### Each outcome is reported -/

theorem Escapes.decodeTokens_append (hrun : Escapes run bytes) (position : Nat) (t : Text) :
    decodeTokens allowed position [] (tokens (run ++ t)) =
      decodeTokens allowed (position + run.length) bytes (tokens t) := by
  rw [tokens_append_of_escapes hrun, decodeTokens_octets, List.nil_append, hrun.length_eq]

/-- A closed front is read before the rest. -/
theorem Closed.decode_append (h : Closed allowed front s) (t : Text) :
    decode allowed (front ++ t) = (decodeTokens allowed (front.length + 1) [] (tokens t)).map (s ++ ·) := by
  induction h generalizing t with
  | nil => exact (congrFun Except.map_id _).symm
  | @raw front s run r c _ hrun hp hc ih =>
    have hassoc : front ++ run ++ [c] ++ t = front ++ (run ++ c :: t) := by simp
    have hposition : (front ++ run ++ [c]).length + 1 = front.length + 1 + run.length + 1 := by
      simp only [List.length_append, List.length_singleton]
      omega
    rw [hassoc, ih, hrun.decodeTokens_append, tokens_raw hp, decodeTokens_raw, if_pos hc, hposition,
      map_append_map_cons]

/-- Then the escapes of a run are. -/
theorem Closed.decode_run_append (h : Closed allowed front s) (hrun : Escapes run bytes) (t : Text) :
    decode allowed (front ++ run ++ t) =
      (decodeTokens allowed ((front ++ run).length + 1) bytes (tokens t)).map (s ++ ·) := by
  rw [List.append_assoc, h.decode_append, hrun.decodeTokens_append, List.length_append, Nat.add_right_comm]

theorem tokens_stray (hback : ¬ ∃ x y rest a b, back = x :: y :: rest ∧ hexValue? x = some a ∧ hexValue? y = some b) :
    tokens ('%' :: back) = .stray :: tokens back := by
  rcases tokens_cons_cases '%' back with ⟨x, y, rest, a, b, -, rfl, hx, hy⟩ | hplain
  · exact absurd ⟨x, y, rest, a, b, rfl, hx, hy⟩ hback
  · exact hplain back [] (List.append_nil back).symm

theorem decodeTokens_of_not_isUtf8 (hno : ¬ IsUtf8 bytes) (hback : ∀ c rest, back = c :: rest → c ≠ '%') :
    decodeTokens allowed position bytes (tokens back) = .error (.invalidUtf8 (position - 3 * bytes.length)) := by
  have hclose : closeRun position bytes = .error (.invalidUtf8 (position - 3 * bytes.length)) := by
    rcases closeRun_cases position bytes with ⟨r, rfl, -⟩ | ⟨-, h⟩
    · exact absurd (isUtf8_encode r) hno
    · exact h
  cases back with
  | nil => exact hclose
  | cons c rest =>
    rw [tokens_raw (hback c rest rfl), decodeTokens, hclose]
    rfl

theorem decode_of_decodes (h : Decodes allowed t s) : decode allowed t = .ok s := by
  obtain ⟨front, run, s', r, rfl, rfl, hfront, hrun⟩ := h
  have := hfront.decode_run_append hrun []
  rw [List.append_nil, tokens_nil, decodeTokens, closeRun_encode] at this
  exact this

theorem decode_of_reports {e : DecodingError} (h : Reports allowed t e) : decode allowed t = .error e := by
  cases e with
  | malformedEscape position =>
    obtain ⟨front, run, bytes, back, rfl, rfl, ⟨s, f, run', s', r, rfl, rfl, hf, hrun'⟩, hrun, hback⟩ := h
    -- the front may itself end in escapes, which belong to the open run
    have hdecode := hf.decode_run_append (hrun'.append hrun) ('%' :: back)
    rw [tokens_stray hback, decodeTokens, ← List.append_assoc] at hdecode
    exact hdecode
  | invalidUtf8 position =>
    obtain ⟨front, run, bytes, back, rfl, rfl, ⟨s, hs⟩, hlast, hrun, hback, hno⟩ := h
    rw [(hs.closed hlast).decode_run_append hrun, decodeTokens_of_not_isUtf8 hno hback, List.length_append,
      hrun.length_eq, Nat.add_right_comm, Nat.add_sub_cancel]
    rfl
  | illegalCharacter c position description =>
    obtain ⟨front, back, rfl, rfl, rfl, ⟨s, f, run, s', r, rfl, rfl, hf, hrun⟩, hp, hc⟩ := h
    rw [hf.decode_run_append hrun, tokens_raw hp, decodeTokens_raw, if_neg (Bool.eq_false_iff.1 hc)]
    rfl
  | dotSegment => exact h.elim

/-- Decoding accepts exactly the text that decodes, with what it stands for, and on any other text reports the fault that
is there, at its place. -/
theorem decode_eq_iff (allowed : CharSet) (t : Text) :
    (∀ s, decode allowed t = .ok s ↔ Decodes allowed t s) ∧
      ∀ e, decode allowed t = .error e ↔ Reports allowed t e := by
  have houtcome := outcome_decode allowed t
  constructor
  · intro s
    refine ⟨fun h => ?_, decode_of_decodes⟩
    rwa [h] at houtcome
  · intro e
    refine ⟨fun h => ?_, decode_of_reports⟩
    rwa [h] at houtcome

/-- Octets that are not UTF-8 go unnoticed directly ahead of a sign without digits. -/
example : decode .unreserved "a%C3%4".toList = .error (.malformedEscape 5) := by decide

end GenericUri.Percent
