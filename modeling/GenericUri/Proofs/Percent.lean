import GenericUri.Percent

/-!
# Percent — what escaped text says, and its tidied spellings

`decodeTokens_eq_ok_iff` says when symbols decode and to what: each symbol fits the set, the octets of every run are
UTF-8 (`RunsDecode`), and the text has the octets of the symbols.  So the text depends on the octets alone, and a
spelling may change which of them are escaped.

Both tidied spellings decode to what the text decodes to, and tidying once more changes nothing
(`canonicalise_canonicalise`, `normalise_normalise`).  For `normalise` this needs that an octet below 128 is a
character of its own in any UTF-8 text (`Utf8.encode_eq_append_cons`): writing it raw cuts a run in two.
-/

namespace GenericUri

namespace Utf8

variable {s : Text} {b : UInt8} {bs cs : List UInt8} {c : Char}

@[simp] theorem encode_nil : encode [] = [] := rfl

@[simp] theorem encode_cons (c : Char) (s : Text) : encode (c :: s) = encodeChar c ++ encode s := by
  simp [encode]

theorem encode_append (s t : Text) : encode (s ++ t) = encode s ++ encode t := by
  simp [encode]

theorem encodeChar_of_lt (h : c.toNat < 128) : encodeChar c = [UInt8.ofNat c.toNat] := by
  have h' : c.val.toNat ≤ 127 := Nat.le_of_lt_succ h
  exact if_pos h'

/-- The octets of a character beyond ASCII are all beyond ASCII. -/
theorem le_of_mem_encodeChar (hc : 128 ≤ c.toNat) (h : b ∈ encodeChar c) : 128 ≤ b.toNat := by
  have h' : ¬ c.val.toNat ≤ 127 := by
    have : c.toNat = c.val.toNat := rfl
    omega
  simp only [encodeChar, String.utf8EncodeChar, h', if_false] at h
  split at h
  · simp only [List.mem_cons, List.not_mem_nil, or_false] at h
    rcases h with rfl | rfl <;> simp only [UInt8.toNat_ofNat'] <;> omega
  · split at h
    · simp only [List.mem_cons, List.not_mem_nil, or_false] at h
      rcases h with rfl | rfl | rfl <;> simp only [UInt8.toNat_ofNat'] <;> omega
    · simp only [List.mem_cons, List.not_mem_nil, or_false] at h
      rcases h with rfl | rfl | rfl | rfl <;> simp only [UInt8.toNat_ofNat'] <;> omega

theorem encodeChar_ofNat (h : b.toNat < 128) : encodeChar (Char.ofNat b.toNat) = [b] := by
  have hv : (Char.ofNat b.toNat).toNat = b.toNat := by
    have : ∀ n < 128, (Char.ofNat n).toNat = n := by decide
    exact this _ h
  rw [encodeChar_of_lt (by omega), hv, UInt8.ofNat_toNat]

theorem encodeChar_injective {c d : Char} (h : encodeChar c = encodeChar d) : c = d := by
  have hs : encode [c] = encode [d] := by rw [encode_cons, encode_cons, h]
  exact (List.cons.inj (encode_injective hs)).1

/-- An octet below 128 is a character by itself. -/
theorem encodeChar_eq_of_mem (hb : b.toNat < 128) (h : b ∈ encodeChar c) :
    c = Char.ofNat b.toNat ∧ encodeChar c = [b] := by
  rcases Nat.lt_or_ge c.toNat 128 with hc | hc
  · rw [encodeChar_of_lt hc, List.mem_singleton] at h
    have hv : b.toNat = c.toNat := by
      rw [h, UInt8.toNat_ofNat']
      omega
    rw [hv, Char.ofNat_toNat, encodeChar_of_lt hc, h]
    exact ⟨rfl, rfl⟩
  · have := le_of_mem_encodeChar hc h
    omega

/-- An octet below 128 cuts a text in two. -/
theorem encode_eq_append_cons (hb : b.toNat < 128) (h : encode s = bs ++ b :: cs) :
    ∃ l r, s = l ++ Char.ofNat b.toNat :: r ∧ encode l = bs ∧ encode r = cs := by
  induction s generalizing bs with
  | nil => simp at h
  | cons c s ih =>
    rw [encode_cons, List.append_eq_append_iff] at h
    rcases h with ⟨as, rfl, h⟩ | ⟨as, h, hs⟩
    · obtain ⟨l, r, rfl, hl, hr⟩ := ih h
      exact ⟨c :: l, r, rfl, by rw [encode_cons, hl], hr⟩
    · cases as with
      | nil =>
        have hs : encode s = [] ++ b :: cs := by simpa using hs.symm
        obtain ⟨l, r, rfl, hl, hr⟩ := ih hs
        exact ⟨c :: l, r, rfl, by rw [encode_cons, hl]; simpa using h, hr⟩
      | cons a as =>
        obtain ⟨rfl, hcs⟩ := List.cons.inj hs
        obtain ⟨rfl, hc⟩ := encodeChar_eq_of_mem (c := c) hb (by simp [h])
        rw [hc, List.singleton_eq_append_iff] at h
        rcases h with ⟨rfl, h⟩ | ⟨-, h⟩
        · obtain ⟨-, rfl⟩ := List.cons.inj h
          exact ⟨[], s, rfl, rfl, hcs.symm⟩
        · cases h

end Utf8

namespace Percent

variable {allowed : CharSet} {position : Nat} {run : List UInt8} {ts us : List Token} {t u s : Text}

/-! ### When symbols decode -/

/-- The octets that a symbol stands for. -/
def Token.bytes : Token → List UInt8
  | raw c => Utf8.encodeChar c
  | octet b => [b]
  | stray => []

/-- Whether a symbol may stand in text over a set. -/
def Token.Fits (allowed : CharSet) : Token → Prop
  | raw c => allowed.contains c = true
  | octet _ => True
  | stray => False

/-- Octets that are UTF-8. -/
def IsUtf8 (bytes : List UInt8) : Prop := ∃ s, Utf8.encode s = bytes

@[simp] theorem isUtf8_encode (s : Text) : IsUtf8 (Utf8.encode s) := ⟨s, rfl⟩

@[simp] theorem isUtf8_nil : IsUtf8 [] := ⟨[], rfl⟩

/-- The octets of every run are UTF-8, those of `run` being part of the first. -/
def RunsDecode (run : List UInt8) : List Token → Prop
  | [] => IsUtf8 run
  | .octet b :: ts => RunsDecode (run ++ [b]) ts
  | _ :: ts => IsUtf8 run ∧ RunsDecode [] ts

theorem runsDecode_octets (bs : List UInt8) : RunsDecode run (bs.map .octet ++ ts) ↔ RunsDecode (run ++ bs) ts := by
  induction bs generalizing run with
  | nil => simp
  | cons b bs ih =>
    rw [List.map_cons, List.cons_append, RunsDecode, ih]
    simp

theorem closeRun_eq_ok_iff : closeRun position run = .ok s ↔ Utf8.encode s = run := by
  rw [closeRun]
  cases h : Utf8.decode run with
  | none =>
    have hn : Utf8.encode s ≠ run := by
      rintro rfl
      simp at h
    simp [hn]
  | some t =>
    rw [Utf8.decode_eq_some_iff] at h
    subst h
    constructor
    · intro h
      rw [Except.ok.inj h]
    · intro h
      rw [Utf8.encode_injective h]

/-- UTF-8 in every run is UTF-8 in the whole. -/
theorem RunsDecode.isUtf8 (h : RunsDecode run ts) : IsUtf8 (run ++ ts.flatMap Token.bytes) := by
  induction ts generalizing run with
  | nil => simpa [RunsDecode] using h
  | cons tk ts ih =>
    cases tk with
    | octet b => simpa [Token.bytes] using ih h
    | stray =>
      obtain ⟨⟨front, rfl⟩, h⟩ := h
      obtain ⟨back, hback⟩ := ih h
      exact ⟨front ++ back, by simpa [Utf8.encode_append, Token.bytes] using hback⟩
    | raw c =>
      obtain ⟨⟨front, rfl⟩, h⟩ := h
      obtain ⟨back, hback⟩ := ih h
      exact ⟨front ++ c :: back, by simpa [Utf8.encode_append, Token.bytes] using hback⟩

theorem decodeTokens_raw_eq_ok_iff {c : Char} :
    decodeTokens allowed position run (.raw c :: ts) = .ok s ↔
      ∃ front back, Utf8.encode front = run ∧ allowed.contains c = true ∧
        decodeTokens allowed (position + 1) [] ts = .ok back ∧ s = front ++ c :: back := by
  rw [decodeTokens]
  constructor
  · intro h
    cases hr : closeRun position run with
    | error e =>
      rw [hr] at h
      cases h
    | ok front =>
      rw [hr] at h
      change (if allowed.contains c = true then _ else _) = _ at h
      split at h
      · next hc =>
        cases hb : decodeTokens allowed (position + 1) [] ts with
        | error e =>
          rw [hb] at h
          cases h
        | ok back =>
          rw [hb] at h
          exact ⟨front, back, closeRun_eq_ok_iff.1 hr, hc, rfl, (Except.ok.inj h).symm⟩
      · cases h
  · rintro ⟨front, back, hr, hc, hb, rfl⟩
    rw [closeRun_eq_ok_iff.2 hr, hb]
    change (if allowed.contains c = true then _ else _) = _
    rw [if_pos hc]
    rfl

/-- Symbols decode when each fits and the runs are UTF-8, and then to the text of their octets. -/
theorem decodeTokens_eq_ok_iff :
    decodeTokens allowed position run ts = .ok s ↔
      (∀ tk ∈ ts, tk.Fits allowed) ∧ RunsDecode run ts ∧ Utf8.encode s = run ++ ts.flatMap Token.bytes := by
  induction ts generalizing position run s with
  | nil =>
    rw [decodeTokens, closeRun_eq_ok_iff]
    simp only [List.not_mem_nil, false_implies, implies_true, RunsDecode, List.flatMap_nil,
      List.append_nil, true_and]
    exact ⟨fun h => ⟨⟨s, h⟩, h⟩, fun h => h.2⟩
  | cons tk ts ih =>
    cases tk with
    | stray => simp [decodeTokens, Token.Fits]
    | octet b =>
      rw [decodeTokens, ih]
      simp [Token.Fits, RunsDecode, Token.bytes]
    | raw c =>
      rw [decodeTokens_raw_eq_ok_iff, List.forall_mem_cons, List.flatMap_cons]
      constructor
      · rintro ⟨front, back, rfl, hc, hb, rfl⟩
        obtain ⟨hf, hd, hs⟩ := ih.1 hb
        refine ⟨⟨hc, hf⟩, ⟨isUtf8_encode front, hd⟩, ?_⟩
        simp only [List.nil_append] at hs
        simp [Utf8.encode_append, Token.bytes, hs]
      · rintro ⟨⟨hc, hf⟩, ⟨⟨front, rfl⟩, hd⟩, hs⟩
        obtain ⟨back, hback⟩ := hd.isUtf8
        refine ⟨front, back, rfl, hc, ih.2 ⟨hf, hd, hback⟩, Utf8.encode_injective ?_⟩
        simp only [List.nil_append] at hback
        simp [Utf8.encode_append, Token.bytes, hs, hback]

theorem decode_eq_ok_iff :
    decode allowed t = .ok s ↔
      (∀ tk ∈ tokens t, tk.Fits allowed) ∧ RunsDecode [] (tokens t) ∧
        Utf8.encode s = (tokens t).flatMap Token.bytes :=
  decodeTokens_eq_ok_iff

/-- Whether a text decodes is a matter of its symbols and its runs. -/
theorem exists_decode_iff :
    (∃ s, decode allowed t = .ok s) ↔ (∀ tk ∈ tokens t, tk.Fits allowed) ∧ RunsDecode [] (tokens t) := by
  constructor
  · rintro ⟨s, h⟩
    obtain ⟨hf, hd, -⟩ := decode_eq_ok_iff.1 h
    exact ⟨hf, hd⟩
  · rintro ⟨hf, hd⟩
    obtain ⟨s, hs⟩ := hd.isUtf8
    exact ⟨s, decode_eq_ok_iff.2 ⟨hf, hd, hs⟩⟩

/-! ### Symbols and text -/

/-- A raw symbol is not the sign that starts an escape. -/
def Token.Proper : Token → Prop
  | raw c => c ≠ '%'
  | octet _ => True
  | stray => False

theorem proper_of_fits {tk : Token} (hm : tk ∈ tokens t) (hf : tk.Fits allowed) : tk.Proper := by
  fun_induction tokens t with
  | case1 => cases hm
  | case2 h l t a b hl hh ih =>
    rcases List.mem_cons.1 hm with rfl | hm
    · trivial
    · exact ih hm
  | case3 h l t hno ih =>
    rcases List.mem_cons.1 hm with rfl | hm
    · exact hf
    · exact ih hm
  | case4 c t hno ih =>
    rcases List.mem_cons.1 hm with rfl | hm
    · by_cases hc : c = '%'
      · rw [if_pos hc] at hf
        exact hf.elim
      · rw [if_neg hc]
        exact hc
    · exact ih hm

@[simp] theorem tokens_nil : tokens [] = [] := rfl

theorem tokens_text {tk : Token} (h : tk.Proper) (t : Text) : tokens (tk.text ++ t) = tk :: tokens t := by
  cases tk with
  | raw c => exact tokens_raw h t
  | octet b => exact tokens_escape b t
  | stray => exact h.elim

/-- Symbols written down are read back. -/
theorem tokens_flatMap_text (h : ∀ tk ∈ ts, tk.Proper) : tokens (ts.flatMap Token.text) = ts := by
  induction ts with
  | nil => rfl
  | cons tk ts ih =>
    obtain ⟨hp, h⟩ := List.forall_mem_cons.1 h
    rw [List.flatMap_cons, tokens_text hp, ih h]

/-- Escaped text consists of allowed characters, percent signs and hex digits. -/
theorem mem_of_fits {c : Char} (h : ∀ tk ∈ tokens t, tk.Fits allowed) (hc : c ∈ t) :
    c = '%' ∨ (hexValue? c).isSome ∨ allowed.contains c = true := by
  fun_induction tokens t with
  | case1 => cases hc
  | case2 h l t a b hl hh ih =>
    obtain ⟨-, h⟩ := List.forall_mem_cons.1 h
    simp only [List.mem_cons] at hc
    rcases hc with rfl | rfl | rfl | hc
    · exact .inl rfl
    · exact .inr (.inl (by simp [hh]))
    · exact .inr (.inl (by simp [hl]))
    · exact ih h hc
  | case3 h l t hno ih =>
    obtain ⟨hs, -⟩ := List.forall_mem_cons.1 h
    exact hs.elim
  | case4 d t hno ih =>
    obtain ⟨hd, h⟩ := List.forall_mem_cons.1 h
    rcases List.mem_cons.1 hc with rfl | hc
    · by_cases hp : c = '%'
      · exact .inl hp
      · rw [if_neg hp] at hd
        exact .inr (.inr hd)
    · exact ih h hc

/-! ### Tidied spellings -/

/-- A symbol without needless escape. -/
def Token.plain : Token → Token
  | octet b => if CharSet.unreserved.contains (Char.ofNat b.toNat) then raw (Char.ofNat b.toNat) else octet b
  | tk => tk

theorem ne_percent_of_unreserved {c : Char} (h : CharSet.unreserved.contains c = true) : c ≠ '%' := by
  rintro rfl
  exact absurd h (by decide)

/-- An octet that reads as an unreserved character is below 128. -/
theorem octet_lt_of_unreserved {b : UInt8} (h : CharSet.unreserved.contains (Char.ofNat b.toNat) = true) :
    b.toNat < 128 := by
  have hb := b.toNat_lt
  have := CharSet.lt_of_contains rfl h
  rwa [Text.toNat_ofNat (.inl (by omega))] at this

theorem Token.plainText_eq (tk : Token) : tk.plainText = tk.plain.text := by
  cases tk with
  | octet b =>
    simp only [plainText, plain]
    split <;> rfl
  | raw c => rfl
  | stray => rfl

theorem flatMap_plainText (ts : List Token) : ts.flatMap Token.plainText = (ts.map Token.plain).flatMap Token.text := by
  rw [List.flatMap_map]
  exact congrArg (fun f => ts.flatMap f) (funext Token.plainText_eq)

theorem Token.plain_octet {b : UInt8} (h : CharSet.unreserved.contains (Char.ofNat b.toNat) = true) :
    (octet b).plain = raw (Char.ofNat b.toNat) := if_pos h

theorem Token.plain_octet_of_not {b : UInt8} (h : CharSet.unreserved.contains (Char.ofNat b.toNat) ≠ true) :
    (octet b).plain = octet b := if_neg h

/-- A symbol is plain already, or it is the escape of an unreserved character. -/
theorem Token.plain_cases (tk : Token) :
    tk.plain = tk ∨ ∃ b, tk = octet b ∧ CharSet.unreserved.contains (Char.ofNat b.toNat) = true ∧
      tk.plain = raw (Char.ofNat b.toNat) := by
  cases tk with
  | octet b =>
    by_cases h : CharSet.unreserved.contains (Char.ofNat b.toNat) = true
    · exact .inr ⟨b, rfl, h, plain_octet h⟩
    · exact .inl (plain_octet_of_not h)
  | raw c => exact .inl rfl
  | stray => exact .inl rfl

@[simp] theorem Token.plain_plain (tk : Token) : tk.plain.plain = tk.plain := by
  rcases tk.plain_cases with h | ⟨b, -, -, h⟩
  · rw [h, h]
  · rw [h]
    rfl

/-- Writing an octet raw keeps it. -/
@[simp] theorem Token.bytes_plain (tk : Token) : tk.plain.bytes = tk.bytes := by
  rcases tk.plain_cases with h | ⟨b, rfl, hb, h⟩
  · rw [h]
  · rw [h]
    exact Utf8.encodeChar_ofNat (octet_lt_of_unreserved hb)

theorem flatMap_bytes_plain (ts : List Token) : (ts.map Token.plain).flatMap Token.bytes = ts.flatMap Token.bytes := by
  rw [List.flatMap_map]
  exact congrArg (fun f => ts.flatMap f) (funext Token.bytes_plain)

theorem Token.Proper.plain {tk : Token} (h : tk.Proper) : tk.plain.Proper := by
  rcases tk.plain_cases with hp | ⟨b, -, hb, hp⟩
  · rwa [hp]
  · rw [hp]
    exact ne_percent_of_unreserved hb

theorem Token.Fits.plain {tk : Token} (hu : ∀ c, CharSet.unreserved.contains c = true → allowed.contains c = true)
    (h : tk.Fits allowed) : tk.plain.Fits allowed := by
  rcases tk.plain_cases with hp | ⟨b, -, hb, hp⟩
  · rwa [hp]
  · rw [hp]
    exact hu _ hb

/-- An octet below 128 cuts a run of UTF-8 in two. -/
theorem RunsDecode.cut {b : UInt8} {cs : List UInt8} (hb : b.toNat < 128) (h : RunsDecode (run ++ b :: cs) ts) :
    IsUtf8 run ∧ RunsDecode cs ts := by
  have cut : ∀ {cs}, IsUtf8 (run ++ b :: cs) → IsUtf8 run ∧ IsUtf8 cs := by
    rintro cs ⟨s, hs⟩
    obtain ⟨l, r, -, hl, hr⟩ := Utf8.encode_eq_append_cons hb hs
    exact ⟨⟨l, hl⟩, ⟨r, hr⟩⟩
  induction ts generalizing cs with
  | nil => exact cut h
  | cons tk ts ih =>
    cases tk with
    | octet c =>
      have h : RunsDecode (run ++ b :: (cs ++ [c])) ts := by simpa [RunsDecode] using h
      exact ih h
    | raw c => exact ⟨(cut h.1).1, (cut h.1).2, h.2⟩
    | stray => exact ⟨(cut h.1).1, (cut h.1).2, h.2⟩

/-- Writing unreserved octets raw leaves UTF-8 in every run. -/
theorem RunsDecode.plain (h : RunsDecode run ts) : RunsDecode run (ts.map Token.plain) := by
  induction ts generalizing run with
  | nil => exact h
  | cons tk ts ih =>
    cases tk with
    | octet b =>
      rw [List.map_cons]
      by_cases hb : CharSet.unreserved.contains (Char.ofNat b.toNat) = true
      · obtain ⟨hr, ht⟩ := RunsDecode.cut (octet_lt_of_unreserved hb) (show RunsDecode (run ++ b :: []) ts from h)
        rw [Token.plain_octet hb]
        exact ⟨hr, ih ht⟩
      · rw [Token.plain_octet_of_not hb]
        exact ih h
    | raw c => exact ⟨h.1, ih h.2⟩
    | stray => exact ⟨h.1, ih h.2⟩

theorem canonicalise_eq_ok_iff :
    canonicalise allowed t = .ok u ↔
      (∃ s, decode allowed t = .ok s) ∧ u = (tokens t).flatMap Token.text := by
  rw [canonicalise]
  cases decode allowed t with
  | error e => simp [Except.map]
  | ok s => simp [Except.map, eq_comm]

theorem normalise_eq_ok_iff :
    normalise allowed t = .ok u ↔
      (∃ s, decode allowed t = .ok s) ∧ u = (tokens t).flatMap Token.plainText := by
  rw [normalise]
  cases decode allowed t with
  | error e => simp [Except.map]
  | ok s => simp [Except.map, eq_comm]

theorem proper_of_decode (h : decode allowed t = .ok s) : ∀ tk ∈ tokens t, tk.Proper :=
  fun tk htk => proper_of_fits htk ((decode_eq_ok_iff.1 h).1 tk htk)

theorem proper_map_plain (h : ∀ tk ∈ ts, tk.Proper) : ∀ tk ∈ ts.map Token.plain, tk.Proper :=
  List.forall_mem_map.2 fun tk htk => (h tk htk).plain

/-- The canonical spelling has the symbols of the text. -/
theorem tokens_of_canonicalise (h : canonicalise allowed t = .ok u) : tokens u = tokens t := by
  obtain ⟨⟨s, hs⟩, rfl⟩ := canonicalise_eq_ok_iff.1 h
  exact tokens_flatMap_text (proper_of_decode hs)

theorem decode_of_canonicalise (h : canonicalise allowed t = .ok u) : decode allowed u = decode allowed t := by
  rw [decode, decode, tokens_of_canonicalise h]

/-- A canonical spelling is its own canonical spelling. -/
theorem canonicalise_canonicalise (h : canonicalise allowed t = .ok u) : canonicalise allowed u = .ok u := by
  obtain ⟨⟨s, hs⟩, hu⟩ := canonicalise_eq_ok_iff.1 h
  rw [canonicalise_eq_ok_iff, tokens_of_canonicalise h, decode_of_canonicalise h]
  exact ⟨⟨s, hs⟩, hu⟩

/-- The normal spelling has the symbols of the text, less needless escapes. -/
theorem tokens_of_normalise (h : normalise allowed t = .ok u) : tokens u = (tokens t).map Token.plain := by
  obtain ⟨⟨s, hs⟩, rfl⟩ := normalise_eq_ok_iff.1 h
  rw [flatMap_plainText, tokens_flatMap_text (proper_map_plain (proper_of_decode hs))]

section Unreserved

variable (hu : ∀ c, CharSet.unreserved.contains c = true → allowed.contains c = true)
include hu

/-- The normal spelling stands for the same text. -/
theorem decode_of_normalise (h : normalise allowed t = .ok u) : decode allowed u = decode allowed t := by
  obtain ⟨⟨s, hs⟩, -⟩ := normalise_eq_ok_iff.1 h
  obtain ⟨hf, hd, he⟩ := decode_eq_ok_iff.1 hs
  rw [hs, decode_eq_ok_iff, tokens_of_normalise h]
  refine ⟨?_, hd.plain, ?_⟩
  · intro tk htk
    obtain ⟨tk', htk', rfl⟩ := List.mem_map.1 htk
    exact (hf tk' htk').plain hu
  · rw [he, flatMap_bytes_plain]

/-- A normal spelling is its own normal spelling. -/
theorem normalise_normalise (h : normalise allowed t = .ok u) : normalise allowed u = .ok u := by
  obtain ⟨⟨s, hs⟩, hu'⟩ := normalise_eq_ok_iff.1 h
  rw [normalise_eq_ok_iff, tokens_of_normalise h, decode_of_normalise hu h]
  refine ⟨⟨s, hs⟩, ?_⟩
  rw [hu', flatMap_plainText, flatMap_plainText, List.map_map]
  exact congrArg (fun ts => ts.flatMap Token.text) (List.map_congr_left fun tk _ => (Token.plain_plain tk).symm)

end Unreserved

/-! ### What is written is tidy -/

/-- No two texts are written alike. -/
theorem encode_injective (allowed : CharSet) : Function.Injective (encode allowed) := by
  intro t u h
  have hdecode := congrArg (decode allowed) h
  rw [decode_encode, decode_encode] at hdecode
  exact Except.ok.inj hdecode

/-- What is written over a set is canonical. -/
theorem canonicalise_encode (allowed : CharSet) (t : Text) :
    canonicalise allowed (encode allowed t) = .ok (encode allowed t) := by
  have spell (t : Text) : (tokens (encode allowed t)).flatMap Token.text = encode allowed t := by
    induction t with
    | nil => rfl
    | cons c t ih =>
      have hc : encode allowed (c :: t) = encodeChar allowed c ++ encode allowed t := List.flatMap_cons
      rw [hc]
      by_cases h : c ≠ '%' ∧ allowed.contains c = true
      · rw [encodeChar, if_pos h, List.singleton_append, tokens_raw h.1, List.flatMap_cons, ih]
        rfl
      · rw [encodeChar, if_neg h, tokens_escapes, List.flatMap_append, ih, List.flatMap_map]
        rfl
  exact canonicalise_eq_ok_iff.2 ⟨⟨t, decode_encode allowed t⟩, (spell t).symm⟩

/-- What is written over a set with all unreserved characters is normal. -/
theorem normalise_encode (hu : ∀ c, CharSet.unreserved.contains c = true → allowed.contains c = true)
    (t : Text) : normalise allowed (encode allowed t) = .ok (encode allowed t) := by
  -- an octet that is written as an escape belongs to no unreserved character
  have escaped (c : Char) (h : ¬ (c ≠ '%' ∧ allowed.contains c = true)) :
      ∀ b ∈ Utf8.encodeChar c, (Token.octet b).plain = .octet b := by
    intro b hb
    refine Token.plain_octet_of_not fun hr => h ?_
    rcases Nat.lt_or_ge c.toNat 128 with hc | hc
    · rw [Utf8.encodeChar_of_lt hc, List.mem_singleton] at hb
      have hv : Char.ofNat b.toNat = c := by
        have : c.toNat % 256 = c.toNat := by omega
        simp [hb, this]
      rw [hv] at hr
      exact ⟨ne_percent_of_unreserved hr, hu c hr⟩
    · have := Utf8.le_of_mem_encodeChar hc hb
      have := octet_lt_of_unreserved hr
      omega
  have spell (t : Text) : (tokens (encode allowed t)).flatMap Token.plainText = encode allowed t := by
    induction t with
    | nil => rfl
    | cons c t ih =>
      have hc : encode allowed (c :: t) = encodeChar allowed c ++ encode allowed t := List.flatMap_cons
      rw [hc]
      by_cases h : c ≠ '%' ∧ allowed.contains c = true
      · rw [encodeChar, if_pos h, List.singleton_append, tokens_raw h.1, List.flatMap_cons, ih]
        rfl
      · rw [encodeChar, if_neg h, tokens_escapes, List.flatMap_append, ih, List.flatMap_map]
        congr 1
        rw [List.flatMap_def, List.flatMap_def]
        refine congrArg List.flatten (List.map_congr_left fun b hb => ?_)
        rw [Token.plainText_eq, escaped c h b hb]
        rfl
  exact normalise_eq_ok_iff.2 ⟨⟨t, decode_encode allowed t⟩, (spell t).symm⟩

theorem contains_hexDigit {n : Nat} (h : n < 16) : CharSet.hexDigit.contains (hexDigit n) = true := by
  have digit : ∀ n < 16, CharSet.hexDigit.contains (hexDigit n) = true := by decide
  exact digit n h

theorem mem_escape {b : UInt8} {c : Char} (h : c ∈ escape b) : c = '%' ∨ CharSet.hexDigit.contains c = true := by
  have hlt := b.toNat_lt
  simp only [escape, List.mem_cons, List.not_mem_nil, or_false] at h
  rcases h with rfl | rfl | rfl
  · exact .inl rfl
  · exact .inr (contains_hexDigit (by omega))
  · exact .inr (contains_hexDigit (by omega))

/-- What is written consists of allowed characters and of escapes with digits in upper case. -/
theorem mem_encode {c : Char} (h : c ∈ encode allowed t) :
    allowed.contains c = true ∨ c = '%' ∨ CharSet.hexDigit.contains c = true := by
  obtain ⟨d, -, hd⟩ := List.mem_flatMap.1 h
  unfold encodeChar at hd
  split at hd
  · next hraw =>
    obtain rfl := List.mem_singleton.1 hd
    exact .inl hraw.2
  · obtain ⟨b, -, hb⟩ := List.mem_flatMap.1 hd
    exact .inr (mem_escape hb)

/-- A character outside the set is not written, unless escapes are made of it. -/
theorem not_mem_encode {c : Char} (hx : c ≠ '%' ∧ CharSet.hexDigit.contains c = false)
    (hc : allowed.contains c = false) (t : Text) : c ∉ encode allowed t := by
  intro h
  rcases mem_encode h with h | h | h
  · rw [hc] at h
    cases h
  · exact hx.1 h
  · rw [hx.2] at h
    cases h

theorem tokens_encode_nothing (t : Text) : tokens (encode .nothing t) = (Utf8.encode t).map .octet := by
  induction t with
  | nil => rfl
  | cons c t ih =>
    have hc : encode .nothing (c :: t) = (Utf8.encodeChar c).flatMap escape ++ encode .nothing t := by
      simp [encode, encodeChar]
    rw [hc, tokens_escapes, ih, Utf8.encode_cons, List.map_append]

/-- Text that is escaped throughout decodes over any set. -/
theorem decode_encode_nothing (allowed : CharSet) (t : Text) : decode allowed (encode .nothing t) = .ok t := by
  rw [decode_eq_ok_iff, tokens_encode_nothing]
  refine ⟨?_, ?_, ?_⟩
  · intro tk htk
    obtain ⟨b, -, rfl⟩ := List.mem_map.1 htk
    trivial
  · have hrun : RunsDecode ([] ++ Utf8.encode t) [] := isUtf8_encode t
    have := (runsDecode_octets (Utf8.encode t)).2 hrun
    rwa [List.append_nil] at this
  · rw [List.flatMap_map]
    exact (List.flatMap_singleton' _).symm

/-- Unreserved characters that are all escaped are normally written raw. -/
theorem normalise_encode_nothing (h : ∀ c ∈ t, CharSet.unreserved.contains c = true) :
    normalise allowed (encode .nothing t) = .ok t := by
  refine normalise_eq_ok_iff.2 ⟨⟨t, decode_encode_nothing allowed t⟩, ?_⟩
  rw [tokens_encode_nothing]
  induction t with
  | nil => rfl
  | cons c t ih =>
    obtain ⟨hc, ht⟩ := List.forall_mem_cons.1 h
    have hlt := CharSet.lt_of_contains rfl hc
    have hv : Char.ofNat (UInt8.ofNat c.toNat).toNat = c := by
      have : c.toNat % 256 = c.toNat := by omega
      simp [this]
    have hp : (Token.octet (UInt8.ofNat c.toNat)).plainText = [c] := by
      rw [Token.plainText_eq, Token.plain_octet (by rw [hv]; exact hc), hv]
      rfl
    rw [Utf8.encode_cons, Utf8.encodeChar_of_lt hlt, List.map_append, List.flatMap_append, ← ih ht]
    simp [hp]

end Percent
end GenericUri
