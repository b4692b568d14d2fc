import GenericUri.Proofs.Numeral
import GenericUri.Proofs.Percent
import GenericUri.Proofs.ReadsBack
import GenericUri.Scheme
import GenericUri.Segment
import GenericUri.Tail
import GenericUri.UserInfo

/-!
# Components — ports, scheme names, user information, segments and tails read back

Whatever makes one of these components leaves it so that it is read back from its text (`ReadsBack`), and says which
characters the text can hold.  The separators of a reference are not among them.
-/

namespace GenericUri

/-! ### Characters of escaped text -/

namespace Percent

variable {allowed : CharSet} {t s : Text} {c : Char}

/-- A character outside the set occurs in no text over it, unless escapes are made of it. -/
theorem not_mem_of_decode (h : decode allowed t = .ok s) (hp : c ≠ '%') (hx : hexValue? c = none)
    (hc : allowed.contains c = false) : c ∉ t := by
  intro hm
  rcases mem_of_fits (decode_eq_ok_iff.1 h).1 hm with h | h | h
  · exact hp h
  · simp [hx] at h
  · simp [hc] at h

end Percent

/-! ### User information -/

theorem UserInfo.readsBack (u : UserInfo) : ReadsBack u := by
  change UserInfo.read (Percent.encode .userInfo u.value) = .ok u
  rw [UserInfo.read, Percent.decode_encode]
  rfl

theorem UserInfo.not_mem_of_read {t : Text} {u : UserInfo} {c : Char} (h : UserInfo.read t = .ok u)
    (hc : c ∈ ['@', '/', '?', '#']) : c ∉ t := by
  obtain ⟨v, hv, -⟩ := map_eq_ok_iff.1 (mapError_eq_ok_iff.1 h)
  simp only [List.mem_cons, List.not_mem_nil, or_false] at hc
  rcases hc with rfl | rfl | rfl | rfl <;>
    exact Percent.not_mem_of_decode hv (by decide) (by decide) (by decide)

/-! ### Ports -/

namespace Port

variable {p : Port} {t : Text}

theorem ofDigits_eq_ok_iff :
    ofDigits t = .ok p ↔ CharSet.digit.containsAll t = true ∧
      p.digits = if t.dropWhile (· == '0') = [] ∧ t ≠ [] then ['0'] else t.dropWhile (· == '0') := by
  rw [← CharSet.verify_eq_ok_iff (f := .port), ofDigits]
  cases CharSet.digit.verify t .port with
  | error e => simp [bind, Except.bind]
  | ok u =>
    simp only [bind, Except.bind, pure, Except.pure, Except.ok.injEq, true_and]
    exact ⟨fun h => h ▸ rfl, fun h => by rw [← h]⟩

/-- Digits without a leading zero, unless zero is all there is. -/
def Canonical (p : Port) : Prop :=
  CharSet.digit.containsAll p.digits = true ∧ (p.digits.head? = some '0' → p.digits = ['0'])

theorem canonical_of_ofDigits (h : ofDigits t = .ok p) : p.Canonical := by
  obtain ⟨hd, hp⟩ := ofDigits_eq_ok_iff.1 h
  have hall : ∀ c ∈ t, CharSet.digit.contains c = true := List.all_eq_true.1 hd
  split at hp
  · rw [Canonical, hp]
    exact ⟨by decide, fun _ => rfl⟩
  · rw [Canonical, hp]
    refine ⟨List.all_eq_true.2 fun c hc => hall c ((List.dropWhile_sublist _).subset hc), fun h0 => ?_⟩
    have := List.head?_dropWhile_not (· == '0') t
    simp [h0] at this

theorem readsBack_of_canonical (h : p.Canonical) : ReadsBack p := by
  obtain ⟨hd, h0⟩ := h
  refine mapError_eq_ok_iff.2 (ofDigits_eq_ok_iff.2 ⟨hd, ?_⟩)
  change p.digits = if p.digits.dropWhile (· == '0') = [] ∧ p.digits ≠ [] then ['0'] else p.digits.dropWhile (· == '0')
  rcases hp : p.digits with _ | ⟨c, cs⟩
  · rfl
  · by_cases hc : c = '0'
    · have : c :: cs = ['0'] := hp ▸ h0 (by rw [hp, hc]; rfl)
      rw [this]
      rfl
    · have hc' : (c == '0') = false := beq_eq_false_iff_ne.2 hc
      rw [List.dropWhile_cons_of_neg (by simp [hc'])]
      simp

theorem canonical_ofNumber (n : UInt16) : (ofNumber n).Canonical := by
  refine ⟨List.all_eq_true.2 fun c hc => CharSet.contains_digit (isDigit_of_mem_decimal hc), fun h => ?_⟩
  rcases Nat.eq_zero_or_pos n.toNat with hn | hn
  · rw [ofNumber, hn]
    rfl
  · exact absurd h (head?_decimal hn)

/-- Whatever digits a port is made from, it is read back. -/
theorem readsBack_of_ofDigits (h : ofDigits t = .ok p) : ReadsBack p :=
  readsBack_of_canonical (canonical_of_ofDigits h)

theorem ofDigits_of_read (h : read t = .ok p) : ofDigits t = .ok p := mapError_eq_ok_iff.1 h

theorem not_mem_of_read {c : Char} (h : read t = .ok p) (hc : c ∈ ['@', '/', '?', '#', ']']) : c ∉ t := by
  intro hm
  have hd : CharSet.digit.contains c = true :=
    List.all_eq_true.1 (ofDigits_eq_ok_iff.1 (ofDigits_of_read h)).1 c hm
  have hno : ∀ c ∈ ['@', '/', '?', '#', ']'], CharSet.digit.contains c = false :=
    forall_mem_of_all (by decide)
  rw [hno c hc] at hd
  cases hd

end Port

/-! ### Scheme names -/

namespace SchemeName

variable {n : SchemeName} {t : Text}

theorem ofText_eq_ok_iff :
    ofText t = .ok n ↔ ∃ c rest, t = c :: rest ∧ CharSet.alpha.contains c = true ∧
      CharSet.schemeTrailing.containsAll rest = true ∧ n.text = Text.asciiLower t := by
  rcases t with _ | ⟨c, rest⟩
  · simp [ofText]
  · simp only [ofText]
    split
    · next hc =>
      have hall : CharSet.schemeTrailing.containsAll rest = true ↔
          (rest.findIdx? fun c => !CharSet.schemeTrailing.contains c) = none := by
        simp [CharSet.containsAll, List.findIdx?_eq_none_iff]
      split
      · next hn =>
        constructor
        · intro h
          exact ⟨c, rest, rfl, hc, hall.2 hn, by rw [← Except.ok.inj h]⟩
        · rintro ⟨c', rest', -, -, -, ht⟩
          rw [← ht]
      · next i hi =>
        constructor
        · intro h
          cases h
        · rintro ⟨c', rest', he, -, hr, -⟩
          cases he
          rw [hall.1 hr] at hi
          cases hi
    · next hc =>
      constructor
      · intro h
        cases h
      · rintro ⟨c', rest', he, hc', -⟩
        cases he
        exact absurd hc' hc

theorem schemeTrailing_of_alpha {c : Char} (h : CharSet.alpha.contains c = true) :
    CharSet.schemeTrailing.contains c = true :=
  CharSet.contains_mono rfl (by decide) h

/-- Lower-casing stays within the characters of scheme names, and happens once. -/
theorem toLower_facts : ∀ c : Char, CharSet.schemeTrailing.contains c = true →
    (CharSet.alpha.contains c = true → CharSet.alpha.contains c.toLower = true) ∧
      CharSet.schemeTrailing.contains c.toLower = true ∧ c.toLower.toLower = c.toLower :=
  CharSet.forall_of_contains rfl (by decide)

/-- A name taken from a text is the name of its own text. -/
theorem ofText_text (h : ofText t = .ok n) : ofText n.text = .ok n := by
  obtain ⟨c, rest, rfl, hc, hr, hn⟩ := ofText_eq_ok_iff.1 h
  have hr' : ∀ d ∈ rest, CharSet.schemeTrailing.contains d = true := List.all_eq_true.1 hr
  have hcl := toLower_facts c (schemeTrailing_of_alpha hc)
  have hn' : n.text = c.toLower :: Text.asciiLower rest := hn
  refine ofText_eq_ok_iff.2 ⟨c.toLower, Text.asciiLower rest, hn', hcl.1 hc, ?_, ?_⟩
  · refine List.all_eq_true.2 fun d hd => ?_
    obtain ⟨e, he, rfl⟩ := List.mem_map.1 hd
    exact (toLower_facts e (hr' e he)).2.1
  · rw [hn']
    change _ = c.toLower.toLower :: (rest.map Char.toLower).map Char.toLower
    rw [hcl.2.2, List.map_map]
    congr 1
    exact List.map_congr_left fun d hd => ((toLower_facts d (hr' d hd)).2.2).symm

theorem containsAll_of_ofText (h : ofText t = .ok n) : CharSet.schemeTrailing.containsAll t = true := by
  obtain ⟨c, rest, rfl, hc, hr, -⟩ := ofText_eq_ok_iff.1 h
  exact List.all_eq_true.2 (List.forall_mem_cons.2 ⟨schemeTrailing_of_alpha hc, List.all_eq_true.1 hr⟩)

theorem ne_nil_of_ofText (h : ofText t = .ok n) : t ≠ [] := by
  obtain ⟨c, rest, rfl, -⟩ := ofText_eq_ok_iff.1 h
  exact List.cons_ne_nil c rest

theorem not_mem_of_ofText {c : Char} (h : ofText t = .ok n) (hc : c ∈ [':', '/', '?', '#']) : c ∉ t := by
  intro hm
  have hd : CharSet.schemeTrailing.contains c = true := List.all_eq_true.1 (containsAll_of_ofText h) c hm
  have hno : ∀ c ∈ [':', '/', '?', '#'], CharSet.schemeTrailing.contains c = false :=
    forall_mem_of_all (by decide)
  rw [hno c hc] at hd
  cases hd

end SchemeName

/-! ### Queries and fragments -/

namespace Tail

variable {kind : TailKind} {q : Tail kind} {t : Text}

theorem readsBack_of_canonicalise (h : Percent.canonicalise .queryOrFragment t = .ok q.text) : ReadsBack q := by
  change read q.text = .ok q
  rw [read, Percent.canonicalise_canonicalise h]
  rfl

theorem canonicalise_of_read (h : read t = .ok q) : Percent.canonicalise .queryOrFragment t = .ok q.text := by
  obtain ⟨u, hu, rfl⟩ := map_eq_ok_iff.1 (mapError_eq_ok_iff.1 h)
  exact hu

theorem readsBack_of_read (h : read t = .ok q) : ReadsBack q := readsBack_of_canonicalise (canonicalise_of_read h)

theorem readsBack_of_ofEncoded (h : ofEncoded t = .ok q) : ReadsBack q := by
  obtain ⟨u, hu, rfl⟩ := map_eq_ok_iff.1 (mapError_eq_ok_iff.1 h)
  exact readsBack_of_canonicalise hu

theorem readsBack_ofValue (v : Text) : ReadsBack (ofValue v : Tail kind) :=
  readsBack_of_canonicalise (Percent.canonicalise_encode .queryOrFragment v)

theorem not_mem_of_read (h : read t = .ok q) : '#' ∉ t := by
  obtain ⟨⟨s, hs⟩, -⟩ := Percent.canonicalise_eq_ok_iff.1 (canonicalise_of_read h)
  exact Percent.not_mem_of_decode hs (by decide) (by decide) (by decide)

end Tail

/-! ### Segments -/

namespace Segment

variable {s : Segment} {t u : Text}

theorem pchar_of_unreserved (c : Char) (h : CharSet.unreserved.contains c = true) :
    CharSet.pchar.contains c = true :=
  CharSet.contains_mono rfl (by decide) h

theorem read_of_ne (h1 : t ≠ ['.']) (h2 : t ≠ ['.', '.']) :
    read t = ((Percent.normalise .pchar t).map guarded).mapError (.encoding .segment) := by
  rw [read.eq_def]
  split
  · exact absurd rfl h1
  · exact absurd rfl h2
  · rfl

theorem read_eq_ok_iff_of_ne (h1 : t ≠ ['.']) (h2 : t ≠ ['.', '.']) :
    read t = .ok s ↔ ∃ v, Percent.normalise .pchar t = .ok v ∧ guarded v = s := by
  rw [read_of_ne h1 h2, mapError_eq_ok_iff, map_eq_ok_iff]

theorem normalise_of_read_value (h : read t = .ok (.value u)) :
    t ≠ ['.'] ∧ t ≠ ['.', '.'] ∧ ∃ v, Percent.normalise .pchar t = .ok v ∧ guarded v = .value u := by
  have h1 : t ≠ ['.'] := by
    rintro rfl
    cases h
  have h2 : t ≠ ['.', '.'] := by
    rintro rfl
    cases h
  exact ⟨h1, h2, (read_eq_ok_iff_of_ne h1 h2).1 h⟩

theorem normalise_escaped_step (h : u = ['.'] ∨ u = ['.', '.']) :
    Percent.normalise .pchar (Percent.encode .nothing u) = .ok u := by
  refine Percent.normalise_encode_nothing ?_
  rcases h with rfl | rfl <;> exact forall_mem_of_all (by decide)

/-- The escaped spellings of `.` and `..` are read as values with these spellings. -/
theorem readsBack_guarded_step (h : u = ['.'] ∨ u = ['.', '.']) : ReadsBack (value (Percent.encode .nothing u)) := by
  have hne : Percent.encode .nothing u ≠ ['.'] ∧ Percent.encode .nothing u ≠ ['.', '.'] := by
    rcases h with rfl | rfl <;> decide
  exact (read_eq_ok_iff_of_ne hne.1 hne.2).2 ⟨u, normalise_escaped_step h, if_pos h⟩

/-- A normal spelling, guarded, is read back. -/
theorem readsBack_guarded (h : Percent.normalise .pchar u = .ok u) : ReadsBack (guarded u) := by
  rw [guarded]
  split
  · next hs => exact readsBack_guarded_step hs
  · next hs =>
    rw [not_or] at hs
    exact (read_eq_ok_iff_of_ne hs.1 hs.2).2 ⟨u, h, if_neg (not_or.2 hs)⟩

theorem readsBack_of_read (h : read t = .ok s) : ReadsBack s := by
  cases s with
  | dot => rfl
  | dotDot => rfl
  | value u =>
    obtain ⟨-, -, v, hv, hg⟩ := normalise_of_read_value h
    rw [← hg]
    exact readsBack_guarded (Percent.normalise_normalise pchar_of_unreserved hv)

theorem readsBack_of_ofEncoded (h : ofEncoded t = .ok s) : ReadsBack s := by
  obtain ⟨u, hu, rfl⟩ := map_eq_ok_iff.1 (mapError_eq_ok_iff.1 h)
  exact readsBack_guarded (Percent.normalise_normalise pchar_of_unreserved hu)

theorem readsBack_ofValue (v : Text) : ReadsBack (ofValue v) :=
  readsBack_guarded (Percent.normalise_encode pchar_of_unreserved v)

theorem readsBack_empty : ReadsBack empty := by
  simpa [ofValue, Percent.encode, guarded, empty] using readsBack_ofValue []

/-- A segment is read from a text without a separator of paths or of references. -/
theorem not_mem_of_read {c : Char} (h : read t = .ok s) (hc : c ∈ ['/', '?', '#']) : c ∉ t := by
  have hout : ∀ c ∈ ['/', '?', '#'], c ≠ '%' ∧ hexValue? c = none ∧ CharSet.pchar.contains c = false ∧ c ≠ '.' :=
    forall_mem_of_all (by decide)
  obtain ⟨hp, hx, hpchar, hdot⟩ := hout c hc
  by_cases h1 : t = ['.']
  · simpa [h1] using hdot
  by_cases h2 : t = ['.', '.']
  · simpa [h2] using hdot
  obtain ⟨v, hv, -⟩ := (read_eq_ok_iff_of_ne h1 h2).1 h
  obtain ⟨⟨w, hw⟩, -⟩ := Percent.normalise_eq_ok_iff.1 hv
  exact Percent.not_mem_of_decode hw hp hx hpchar

/-- The text of a value that is read back is not that of a step. -/
theorem text_ne_step (h : ReadsBack (value u)) : u ≠ ['.'] ∧ u ≠ ['.', '.'] := by
  obtain ⟨h1, h2, -⟩ := normalise_of_read_value h
  exact ⟨h1, h2⟩

end Segment
end GenericUri
