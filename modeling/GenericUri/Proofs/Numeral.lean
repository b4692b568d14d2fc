import GenericUri.CharSet
import GenericUri.Hexadectet
import GenericUri.Octet
import GenericUri.Proofs.ReadsBack
import Mathlib.Data.List.Induction
import Mathlib.Data.Nat.Digits.Defs

/-!
# Numeral — numerals read back, and which texts are numerals

A decimal numeral has no leading zero, and a hex numeral gives its number back digit by digit.  So the numbers of an
address, octets and 16-bit groups, are read back from their texts.

The decimal numeral of a number is the only one: a text is read as an octet if it is the octet's text
(`Octet.ofText?_eq_some_iff`).  Hex numerals may be of either case and have zeros in front, so a group has many texts,
those that denote it by place value (`Hexadectet.ofText?_eq_some_iff`).
-/

namespace GenericUri

/-! ### Decimal -/

theorem decimal_ne_nil (n : Nat) : decimal n ≠ [] := Nat.toDigits_ne_nil

/-- Only zero is written with a zero in front. -/
theorem head?_toDigits {b n : Nat} (hb : 1 < b) (hb' : b ≤ 16) (h : 0 < n) :
    (Nat.toDigits b n).head? ≠ some '0' := by
  induction n using Nat.base_induction b hb with
  | single m hm =>
    have hd : ∀ m < 16, 0 < m → Nat.digitChar m ≠ '0' := by decide
    rw [Nat.toDigits_of_lt_base hm, List.head?_cons]
    exact fun he => hd m (by omega) h (Option.some.inj he)
  | digit m k hk hm ih =>
    have := ih hm
    rw [← Nat.toDigits_append_toDigits hb hm hk, List.head?_append_of_ne_nil _ Nat.toDigits_ne_nil]
    exact this

theorem head?_decimal {n : Nat} (h : 0 < n) : (decimal n).head? ≠ some '0' :=
  head?_toDigits (by decide) (by decide) h

theorem digitChar_of_isDigit {c : Char} (h : c.isDigit) :
    c.toNat - '0'.toNat < 10 ∧ Nat.digitChar (c.toNat - '0'.toNat) = c := by
  have hdigit : ∀ c : Char, CharSet.digit.contains c = true →
      c.toNat - '0'.toNat < 10 ∧ Nat.digitChar (c.toNat - '0'.toNat) = c :=
    CharSet.forall_of_contains rfl (by decide)
  exact hdigit c (CharSet.contains_digit h)

theorem decimalValue_concat (t : Text) (c : Char) :
    decimalValue (t ++ [c]) = 10 * decimalValue t + (c.toNat - '0'.toNat) := by
  simp [decimalValue, Nat.ofDigitChars]

/-- Digits without a leading zero are the numeral of the number that they denote. -/
theorem decimal_decimalValue {t : Text} (hd : ∀ c ∈ t, c.isDigit) (hne : t ≠ [])
    (hz : t.length = 1 ∨ t.head? ≠ some '0') : decimal (decimalValue t) = t := by
  induction t using List.reverseRecOn with
  | nil => exact absurd rfl hne
  | append_singleton t c ih =>
    obtain ⟨hlt, hc⟩ := digitChar_of_isDigit (hd c (by simp))
    rw [decimalValue_concat]
    rcases eq_or_ne t [] with rfl | ht
    · show decimal (10 * 0 + _) = [c]
      rw [Nat.mul_zero, Nat.zero_add, decimal, Nat.toDigits_of_lt_base hlt, hc]
    · have hhead : t.head? ≠ some '0' := by
        rw [List.head?_append_of_ne_nil _ ht] at hz
        refine hz.resolve_left fun hl => ?_
        rw [List.length_append, List.length_singleton, Nat.add_eq_right, List.length_eq_zero_iff] at hl
        exact ht hl
      have hfront := ih (fun c hc => hd c (List.mem_append_left _ hc)) ht (.inr hhead)
      -- digits in front that denote zero would be a zero
      have hpos : 0 < decimalValue t := by
        refine Nat.pos_of_ne_zero fun h0 => hhead ?_
        rw [← hfront, h0]
        rfl
      rw [decimal, ← Nat.toDigits_append_toDigits (by decide) hpos hlt, Nat.toDigits_of_lt_base hlt, hc]
      exact congrArg (· ++ [c]) hfront

namespace Octet

theorem ofText?_text (o : Octet) : ofText? o.text = some o := by
  have ho : o.toNat < 256 := o.toNat_lt
  have hv : decimalValue o.text = o.toNat := decimalValue_decimal o.toNat
  have hz : o.text.length = 1 ∨ o.text.head? ≠ some '0' := by
    rcases Nat.eq_zero_or_pos o.toNat with h | h
    · rw [text, h]
      exact .inl rfl
    · exact .inr (head?_decimal h)
  have hlen : o.text.length ≤ 3 := (Nat.length_toDigits_le_iff (by decide) (by decide)).2 (by omega)
  rw [ofText?, if_pos, hv, UInt8.ofNat_toNat]
  refine ⟨List.length_pos_of_ne_nil (decimal_ne_nil _), hlen, ?_, hz, by omega⟩
  exact List.all_eq_true.2 fun c hc => isDigit_of_mem_decimal hc

/-- An octet is read from its text and from no other. -/
theorem ofText?_eq_some_iff {t : Text} {o : Octet} : ofText? t = some o ↔ t = o.text := by
  constructor
  · intro h
    unfold ofText? at h
    split at h
    · next hc =>
      obtain ⟨hlen, -, hd, hz, hlt⟩ := hc
      cases h
      rw [text, UInt8.toNat_ofNat_of_lt' hlt]
      exact (decimal_decimalValue (List.all_eq_true.1 hd) (List.ne_nil_of_length_pos hlen) hz).symm
    · cases h
  · rintro rfl
    exact ofText?_text o

theorem readsBack (o : Octet) : ReadsBack o := by
  change (ofText? o.text).elim (Except.error _) Except.ok = .ok o
  rw [ofText?_text]
  rfl

end Octet

/-! ### Hex -/

theorem hexValue?_digitChar {d : Nat} (h : d < 16) : hexValue? (Nat.digitChar d) = some d := by
  have : ∀ d < 16, hexValue? (Nat.digitChar d) = some d := by decide
  exact this d h

theorem hexValue?_of_ge {c : Char} (h : 128 ≤ c.toNat) : hexValue? c = none := by
  have hle : ∀ d : Char, d.toNat < 128 → ¬ c ≤ d := by
    intro d hd hcd
    have : c.toNat ≤ d.toNat := hcd
    omega
  rw [hexValue?, if_neg fun h => hle '9' (by decide) h.2, if_neg fun h => hle 'F' (by decide) h.2,
    if_neg fun h => hle 'f' (by decide) h.2]

/-- A hex digit is a digit of the numerals or its upper case. -/
theorem hexValue?_eq_some_iff {c : Char} {d : ℕ} : hexValue? c = some d ↔ d < 16 ∧ c.toLower = Nat.digitChar d := by
  rcases Nat.lt_or_ge c.toNat 128 with hlt | hge
  · have hvalue : ∀ c ∈ CharSet.everything.members, ∀ d ∈ hexValue? c, d < 16 ∧ c.toLower = Nat.digitChar d :=
      forall_mem_of_all (by decide)
    have hdigit : ∀ c ∈ CharSet.everything.members, ∀ d < 16, c.toLower = Nat.digitChar d → hexValue? c = some d :=
      forall_mem_of_all (by decide)
    have hc : c ∈ CharSet.everything.members := CharSet.mem_members.2 ⟨hlt, CharSet.contains_everything c⟩
    exact ⟨hvalue c hc d, fun h => hdigit c hc d h.1 h.2⟩
  · rw [hexValue?_of_ge hge]
    constructor
    · nofun
    · rintro ⟨hd, h⟩
      -- beyond ASCII a character is its own lower case
      have hlower : c.toLower = c := by
        refine dif_neg fun hz => ?_
        have : c.toNat ≤ 90 := hz.2
        omega
      have hascii : ∀ d < 16, (Nat.digitChar d).toNat < 128 := by decide
      have := hascii d hd
      rw [← h, hlower] at this
      omega

/-- The first digit counts most. -/
theorem hexNumber_eq_ofDigits (ds : List ℕ) : hexNumber ds = Nat.ofDigits 16 ds.reverse := by
  rw [Nat.ofDigits_eq_foldr, List.foldr_reverse]
  show ds.foldl (fun n d => 16 * n + d) 0 = ds.foldl (fun n d => ↑d + 16 * n) 0
  congr 1
  funext n d
  exact Nat.add_comm _ _

/-- The digits of a hex numeral denote its number. -/
theorem hexNumber_hex (n : Nat) : ∃ ds, (hex n).mapM hexValue? = some ds ∧ hexNumber ds = n := by
  induction n using Nat.base_induction 16 (by decide) with
  | single m hm =>
    refine ⟨[m], ?_, by simp [hexNumber]⟩
    rw [hex, Nat.toDigits_of_lt_base hm]
    simp [hexValue?_digitChar hm]
  | digit m k hk hm ih =>
    obtain ⟨ds, hds, hv⟩ := ih
    refine ⟨ds ++ [k], ?_, ?_⟩
    · rw [hex, ← Nat.toDigits_append_toDigits (by decide) hm hk, List.mapM_append, Nat.toDigits_of_lt_base hk]
      rw [hex] at hds
      simp [hds, hexValue?_digitChar hk]
    · rw [hexNumber, List.foldl_append]
      rw [hexNumber] at hv
      simp [hv]

theorem hex_ne_nil (n : Nat) : hex n ≠ [] := Nat.toDigits_ne_nil

namespace Hexadectet

theorem ofText?_text (g : Hexadectet) : ofText? g.text = some g := by
  obtain ⟨ds, hds, hv⟩ := hexNumber_hex g.toNat
  have hl : g.text.length ≤ 4 := (Nat.length_toDigits_le_iff (by decide) (by decide)).2 g.toNat_lt
  rw [ofText?, if_pos ⟨List.length_pos_of_ne_nil (hex_ne_nil _), hl⟩, text, hds, Option.map_some, hv,
    UInt16.ofNat_toNat]

/-- The text is up to four hex digits, of either case, that denote the group. -/
def Denotes (t : Text) (g : Hexadectet) : Prop :=
  1 ≤ t.length ∧ t.length ≤ 4 ∧ ∃ ds : List ℕ,
    List.Forall₂ (fun c d => d < 16 ∧ c.toLower = Nat.digitChar d) t ds ∧ g.toNat = Nat.ofDigits 16 ds.reverse

theorem ofText?_eq_some_iff {t : Text} {g : Hexadectet} : ofText? t = some g ↔ Denotes t g := by
  have hread : ofText? t = some g ↔ (1 ≤ t.length ∧ t.length ≤ 4) ∧ ∃ ds,
      List.Forall₂ (fun c d => hexValue? c = some d) t ds ∧ UInt16.ofNat (hexNumber ds) = g := by
    rw [ofText?]
    split
    · next hlen => simp only [Option.map_eq_some_iff, mapM_eq_some_iff, hlen, true_and, and_self]
    · next hlen => exact ⟨nofun, fun h => absurd h.1 hlen⟩
  rw [hread, and_assoc, Denotes]
  refine and_congr_right fun _ => and_congr_right fun h4 => exists_congr fun ds => ?_
  simp only [hexValue?_eq_some_iff]
  refine and_congr_right fun hds => ?_
  have hlt : hexNumber ds < UInt16.size := by
    have hsmall : ∀ d ∈ ds.reverse, d < 16 := by
      intro d hd
      obtain ⟨c, -, hc⟩ := exists_of_forall₂_right hds (List.mem_reverse.1 hd)
      exact hc.1
    calc hexNumber ds = Nat.ofDigits 16 ds.reverse := hexNumber_eq_ofDigits ds
      _ < 16 ^ ds.reverse.length := Nat.ofDigits_lt_base_pow_length (by decide) hsmall
      _ ≤ 16 ^ 4 := Nat.pow_le_pow_right (by decide) (by rwa [List.length_reverse, ← hds.length_eq])
  rw [← hexNumber_eq_ofDigits, ← UInt16.toNat_inj, UInt16.toNat_ofNat_of_lt' hlt, eq_comm]

theorem readsBack (g : Hexadectet) : ReadsBack g := by
  change (ofText? g.text).elim (Except.error _) Except.ok = .ok g
  rw [ofText?_text]
  rfl

end Hexadectet
end GenericUri
