import GenericUri.Proofs.Reachable

/-!
# PortNumber — ports as numbers

A port is held as the decimal numeral of what its digits denote, or as no text if there are no digits
(`Port.ofDigits_eq`).  There is one numeral for each number, however long, so comparing ports as texts is comparing them
as numbers, and an authority drops a port by its number (`Port.ofDigits_eq_iff_sameNumber`).

Leading zeros count nothing (`decimalValue_dropWhile_zero`), and what is left of the digits without them is a numeral.
-/

namespace GenericUri

variable {t : Text} {m n : Nat}

/-! ### Leading zeros -/

theorem decimalValue_dropWhile_zero (t : Text) : decimalValue (t.dropWhile (· == '0')) = decimalValue t := by
  induction t with
  | nil => rfl
  | cons c t ih =>
    by_cases hc : c = '0'
    · subst hc
      rw [List.dropWhile_cons_of_pos (by decide), ih]
      rfl
    · rw [List.dropWhile_cons_of_neg (by simpa using hc)]

theorem decimal_inj : decimal m = decimal n ↔ m = n := by
  refine ⟨fun h => ?_, fun h => by rw [h]⟩
  rw [← decimalValue_decimal m, h, decimalValue_decimal]

/-- Digits without their leading zeros, or a zero if nothing is left, are the numeral of what the digits denote. -/
theorem trimmed_eq_decimal (hd : ∀ c ∈ t, c.isDigit) :
    (if t.dropWhile (· == '0') = [] then ['0'] else t.dropWhile (· == '0')) = decimal (decimalValue t) := by
  rw [← decimalValue_dropWhile_zero t]
  split
  · next hz =>
    rw [hz]
    rfl
  · next hz =>
    refine (decimal_decimalValue (fun c hc => hd c ((List.dropWhile_sublist _).subset hc)) hz (.inr fun h0 => ?_)).symm
    have := List.head?_dropWhile_not (· == '0') t
    simp [h0] at this

namespace Port

variable {a b : Text} {p q : Port}

/-! ### Ports from digits -/

/-- Two digit strings are the same port: both are empty, or both denote one number. -/
def SameNumber (a b : Text) : Prop := (a = [] ∧ b = []) ∨ (a ≠ [] ∧ b ≠ [] ∧ decimalValue a = decimalValue b)

instance (a b : Text) : Decidable (SameNumber a b) := inferInstanceAs (Decidable (_ ∨ _))

/-- The numeral of what the digits denote; no digits denote nothing. -/
def numeral (t : Text) : Text := if t = [] then [] else decimal (decimalValue t)

theorem numeral_eq_nil_iff : numeral t = [] ↔ t = [] := by
  unfold numeral
  split
  · next h => exact iff_of_true rfl h
  · next h => exact iff_of_false (decimal_ne_nil _) h

theorem decimalValue_numeral (t : Text) : decimalValue (numeral t) = decimalValue t := by
  unfold numeral
  split
  · next h => rw [h]
  · exact decimalValue_decimal _

theorem numeral_eq_iff : numeral a = numeral b ↔ SameNumber a b := by
  have hnil : numeral [] = [] := rfl
  unfold SameNumber
  rcases eq_or_ne a [] with rfl | ha
  · rw [hnil, eq_comm, numeral_eq_nil_iff]
    simp
  · rcases eq_or_ne b [] with rfl | hb
    · rw [hnil, numeral_eq_nil_iff]
      simp [ha]
    · rw [numeral, numeral, if_neg ha, if_neg hb, decimal_inj]
      simp [ha, hb]

theorem ofDigits_eq (hd : ∀ c ∈ t, c.isDigit) : ofDigits t = .ok ⟨numeral t⟩ := by
  refine ofDigits_eq_ok_iff.2 ⟨List.all_eq_true.2 fun c hc => CharSet.contains_digit (hd c hc), ?_⟩
  show numeral t = _
  unfold numeral
  by_cases hne : t = []
  · rw [if_pos hne, hne]
    rfl
  · rw [if_neg hne, ← trimmed_eq_decimal hd]
    simp only [hne, ne_eq, not_false_eq_true, and_true]

theorem isDigit_of_ofDigits (h : ofDigits t = .ok p) : ∀ c ∈ t, c.isDigit := by
  have hdigit : ∀ c : Char, CharSet.digit.contains c = true → c.isDigit = true :=
    CharSet.forall_of_contains rfl (by decide)
  exact fun c hc => hdigit c (List.all_eq_true.1 (ofDigits_eq_ok_iff.1 h).1 c hc)

theorem number?_eq_some_iff {n : UInt16} : p.number? = some n ↔ p.digits ≠ [] ∧ decimalValue p.digits = n.toNat := by
  unfold number?
  constructor
  · intro h
    split at h
    · next hc =>
      cases h
      exact ⟨hc.1, (UInt16.toNat_ofNat_of_lt' hc.2).symm⟩
    · cases h
  · rintro ⟨hne, hv⟩
    rw [if_pos ⟨hne, hv ▸ n.toNat_lt⟩, hv, UInt16.ofNat_toNat]

/-- Two ports made of digits are one if their digits are the same number. -/
theorem eq_iff_sameNumber (hp : ofDigits a = .ok p) (hq : ofDigits b = .ok q) : p = q ↔ SameNumber a b := by
  rw [ofDigits_eq (isDigit_of_ofDigits hp), Except.ok.injEq] at hp
  rw [ofDigits_eq (isDigit_of_ofDigits hq), Except.ok.injEq] at hq
  rw [← hp, ← hq, mk.injEq, numeral_eq_iff]

/-- Digits make a port, however many there are: it is held as the numeral of what they denote, which is read as that port
again, and has a number of 16 bits if they denote one.  Digits make the same port exactly if they are the same number, and
so an authority drops its port by number.  Every port is made of digits, its own. -/
theorem ofDigits_eq_iff_sameNumber :
    (∀ a : Text, (∀ c ∈ a, c.isDigit) → ∃ p, ofDigits a = .ok p ∧
        p.digits = (if a = [] then [] else decimal (decimalValue a)) ∧ parse Port p.digits = .ok p ∧
          ∀ n : ℕ, p.number?.map UInt16.toNat = some n ↔ a ≠ [] ∧ decimalValue a = n ∧ n < 65536) ∧
      (∀ a b : Text, (∀ c ∈ a, c.isDigit) → (∀ c ∈ b, c.isDigit) →
        (ofDigits a = ofDigits b ↔ SameNumber a b)) ∧
        (∀ (x : Authority) (a b : Text) (p q : Port), x.port = some p → ofDigits a = .ok p → ofDigits b = .ok q →
          x.withoutPortIf q = if SameNumber a b then { x with port := none } else x) ∧
          ∀ p : Port, Reachable (.port p) → ofDigits p.digits = .ok p := by
  refine ⟨?_, ?_, ?_, ?_⟩
  · intro a ha
    have hp := ofDigits_eq ha
    refine ⟨⟨numeral a⟩, hp, rfl, readsBack_iff_parse.1 (readsBack_of_ofDigits hp), fun n => ?_⟩
    rw [Option.map_eq_some_iff]
    constructor
    · rintro ⟨k, hk, rfl⟩
      obtain ⟨hne, hv⟩ := number?_eq_some_iff.1 hk
      exact ⟨mt numeral_eq_nil_iff.2 hne, (decimalValue_numeral a).symm.trans hv, k.toNat_lt⟩
    · rintro ⟨hne, hv, hn⟩
      have hk : (UInt16.ofNat n).toNat = n := UInt16.toNat_ofNat_of_lt' hn
      refine ⟨UInt16.ofNat n, number?_eq_some_iff.2 ⟨mt numeral_eq_nil_iff.1 hne, ?_⟩, hk⟩
      rw [hk]
      exact (decimalValue_numeral a).trans hv
  · intro a b ha hb
    rw [ofDigits_eq ha, ofDigits_eq hb, Except.ok.injEq, mk.injEq, numeral_eq_iff]
  · intro x a b p q hx hp hq
    have hdrop : x.port = some q ↔ SameNumber a b := by
      rw [hx, Option.some.injEq]
      exact eq_iff_sameNumber hp hq
    exact if_congr hdrop rfl rfl
  · intro p h
    have hread : ReadsBack p := h.wellFormed
    exact ofDigits_of_read hread

/-- Zeros in front are dropped with the port, zeros alone are a port and no digits are another, and 65536 is a port
without a number of 16 bits. -/
theorem ofDigits_eq_iff_sameNumber_zeros :
    let a := "00080".toList
    let b := "80".toList
    let zeros := "000".toList
    let long := "065536".toList
    let x : Authority := ⟨none, .localhost, some (.ofNumber 80)⟩
    ((∀ c ∈ a, c.isDigit) ∧ (∀ c ∈ b, c.isDigit) ∧ (∀ c ∈ zeros, c.isDigit) ∧ (∀ c ∈ long, c.isDigit) ∧
        x.port = some (.ofNumber 80) ∧ ofDigits a = .ok (.ofNumber 80) ∧ Reachable (.port (.ofNumber 80))) ∧
      (∃ p, ofDigits long = .ok p ∧ p.digits = "65536".toList ∧ parse Port p.digits = .ok p ∧ p.number? = none) ∧
        (ofDigits a = ofDigits b ∧ ofDigits zeros ≠ ofDigits [] ∧ ofDigits zeros ≠ ofDigits a) ∧
          x.withoutPortIf (.ofNumber 80) = ⟨none, .localhost, none⟩ ∧
            ofDigits (Port.ofNumber 80).digits = .ok (.ofNumber 80) := by
  intro a b zeros long x
  have ha : ∀ c ∈ a, c.isDigit := forall_mem_of_all (by decide)
  have hb : ∀ c ∈ b, c.isDigit := forall_mem_of_all (by decide)
  have hzeros : ∀ c ∈ zeros, c.isDigit := forall_mem_of_all (by decide)
  have hlong : ∀ c ∈ long, c.isDigit := forall_mem_of_all (by decide)
  have hp : ofDigits a = .ok (.ofNumber 80) := by decide
  have hr : Reachable (.port (.ofNumber 80)) := .portNumber
  obtain ⟨hmade, hsame, hdrop, hown⟩ := ofDigits_eq_iff_sameNumber
  obtain ⟨p, hlp, hdigits, hparse, hnumber⟩ := hmade long hlong
  have hnone : p.number? = none := by
    refine Option.eq_none_iff_forall_not_mem.2 fun n hn => ?_
    have hvalue := (hnumber n.toNat).1 (by rw [hn]; rfl)
    have hlarge : decimalValue long = 65536 := by decide
    omega
  refine ⟨⟨ha, hb, hzeros, hlong, rfl, hp, hr⟩, ⟨p, hlp, hdigits.trans (by decide), hparse, hnone⟩, ⟨?_, ?_, ?_⟩, ?_,
    hown _ hr⟩
  · exact (hsame a b ha hb).2 (by decide)
  · exact mt (hsame zeros [] hzeros nofun).1 (by decide)
  · exact mt (hsame zeros a hzeros ha).1 (by decide)
  · exact (hdrop x a a _ _ rfl hp hp).trans (if_pos (by decide))

end Port
end GenericUri
