import GenericUri.Unicode.Lowercase

/-!
# Lowercase — lower-casing happens once

A character is settled if the tables leave it alone.  Whatever lower-casing writes is settled, so lower-casing once
more changes nothing (`lowercase_lowercase`).  For the table this is a matter of its ranges: the image of each range
runs past every range, or beside it in steps of two.

No image lies among the digits, the dot or any other character before the letters.  So a lower-cased text without
letters is the text itself (`lowercase_eq_of_lt`), and lower-casing makes no addresses of names.
-/

namespace GenericUri.Unicode

variable {r q : CaseRange} {n : Nat} {c d : Char} {t before : Text}

/-- The lower case of a character of the range. -/
def CaseRange.lower (r : CaseRange) (n : Nat) : Nat := (n + r.shift).toNat

/-! ### The table -/

/-- The range `q` has no number of the row from `low` to `high`, which is one number or goes in steps of two if
`sparse`. -/
def CaseRange.isBeside (q : CaseRange) (low high : Nat) (sparse : Bool) : Bool :=
  Nat.blt high q.first || (Nat.blt q.last low ||
    (Nat.beq q.step 2 && (sparse && Nat.beq ((low + q.first) % 2) 1)))

/-- The range goes in steps of two, or holds one character. -/
def CaseRange.isSparse (r : CaseRange) : Bool := Nat.beq r.step 2 || Nat.beq r.first r.last

theorem isBeside_lower : ∀ r ∈ lowerRanges, ∀ q ∈ lowerRanges,
    q.isBeside (r.lower r.first) (r.lower r.last) r.isSparse = true := by
  have : (lowerRanges.all fun r => lowerRanges.all fun q =>
      q.isBeside (r.lower r.first) (r.lower r.last) r.isSparse) = true := by
    decide +kernel
  intro r hr q hq
  exact List.all_eq_true.1 (List.all_eq_true.1 this r hr) q hq

/-- The lower cases are characters, follow the capitals of ASCII, and leave out the capital I with a dot. -/
theorem lower_bounds : ∀ r ∈ lowerRanges, 0x5b ≤ r.lower r.first ∧
    (r.lower r.last < 0xd800 ∨ (0xe000 ≤ r.lower r.first ∧ r.lower r.last < 0x110000)) ∧
    (r.lower r.last < 0x130 ∨ 0x130 < r.lower r.first) :=
  forall_mem_of_all (by decide)

theorem CaseRange.contains_iff :
    r.contains n = true ↔ r.first ≤ n ∧ n ≤ r.last ∧ (n - r.first) % r.step = 0 := by
  simp [contains, and_assoc]

/-- The image of a range keeps its order and its distances. -/
theorem lower_between (hr : r ∈ lowerRanges) (hn : r.contains n = true) :
    r.lower r.first ≤ r.lower n ∧ r.lower n ≤ r.lower r.last ∧ r.lower n - r.lower r.first = n - r.first := by
  have hb := (lower_bounds r hr).1
  obtain ⟨h1, h2, -⟩ := CaseRange.contains_iff.1 hn
  simp only [CaseRange.lower] at hb ⊢
  omega

/-- The lower case of a character of the table is no character of the table. -/
theorem not_contains_lower (hr : r ∈ lowerRanges) (hn : r.contains n = true) (hq : q ∈ lowerRanges) :
    q.contains (r.lower n) = false := by
  rw [Bool.eq_false_iff]
  intro hm
  obtain ⟨hlo, hhi, hdist⟩ := lower_between hr hn
  obtain ⟨h1, h2, h3⟩ := CaseRange.contains_iff.1 hn
  obtain ⟨q1, q2, q3⟩ := CaseRange.contains_iff.1 hm
  have hbeside := isBeside_lower r hr q hq
  simp only [CaseRange.isBeside, CaseRange.isSparse, Bool.or_eq_true, Bool.and_eq_true, Nat.blt_eq,
    Nat.beq_eq] at hbeside
  rcases hbeside with h | h | ⟨hstep, hsparse, hodd⟩
  · omega
  · omega
  · rw [hstep] at q3
    have heven : (n - r.first) % 2 = 0 := by
      rcases hsparse with h | h
      · rwa [h] at h3
      · omega
    omega

/-! ### Settled characters -/

/-- Lower-casing leaves the character alone. -/
def Settled (c : Char) : Prop := c ≠ 'İ' ∧ c ≠ 'Σ' ∧ ∀ r ∈ lowerRanges, r.contains c.toNat = false

theorem simpleLower_of_settled (h : Settled c) : simpleLower c = c := by
  have hn : lowerRanges.find? (·.contains c.toNat) = none := by
    rw [List.find?_eq_none]
    intro r hr
    simp [h.2.2 r hr]
  rw [simpleLower, hn]

/-- The lower case of a character alone is settled, and a letter unless the character was settled before. -/
theorem simpleLower_cases (hI : c ≠ 'İ') (hS : c ≠ 'Σ') :
    Settled (simpleLower c) ∧ (simpleLower c = c ∨ 0x5b ≤ (simpleLower c).toNat) := by
  rw [simpleLower]
  split
  · next r hf =>
    have hr := List.mem_of_find?_eq_some hf
    have hc : r.contains c.toNat = true := by simpa using List.find?_some hf
    obtain ⟨h1, h2, h3⟩ := lower_bounds r hr
    obtain ⟨hlo, hhi, -⟩ := lower_between hr hc
    have hv : (Char.ofNat (r.lower c.toNat)).toNat = r.lower c.toNat := by
      apply Text.toNat_ofNat
      rcases h2 with h2 | h2
      · exact .inl (by omega)
      · exact .inr ⟨by omega, by omega⟩
    refine ⟨⟨?_, ?_, ?_⟩, .inr ?_⟩
    · intro he
      have : r.lower c.toNat = 0x130 := by
        rw [← hv]
        exact congrArg Char.toNat he
      omega
    · intro he
      have : r.lower c.toNat = 0x3a3 := by
        rw [← hv]
        exact congrArg Char.toNat he
      -- the capital sigma is in the table, where no lower case is
      have hsigma : ∃ q ∈ lowerRanges, q.contains 0x3a3 = true := List.any_eq_true.1 (by decide)
      obtain ⟨q, hq, hm⟩ := hsigma
      rw [← this, not_contains_lower hr hc hq] at hm
      cases hm
    · intro q hq
      change q.contains (Char.ofNat (r.lower c.toNat)).toNat = false
      rw [hv]
      exact not_contains_lower hr hc hq
    · change 0x5b ≤ (Char.ofNat (r.lower c.toNat)).toNat
      omega
  · next hf =>
    rw [List.find?_eq_none] at hf
    exact ⟨⟨hI, hS, fun r hr => by simpa using hf r hr⟩, .inl rfl⟩

theorem settled_of_mem_lowerChar (hS : c ≠ 'Σ') (hd : d ∈ lowerChar c) : Settled d := by
  rw [lowerChar] at hd
  split at hd
  · have hs : Settled 'i' ∧ Settled '\u0307' :=
      ⟨⟨by decide, by decide, forall_mem_of_all (by decide)⟩, ⟨by decide, by decide, forall_mem_of_all (by decide)⟩⟩
    simp only [List.mem_cons, List.not_mem_nil, or_false] at hd
    rcases hd with rfl | rfl
    · exact hs.1
    · exact hs.2
  · next hI =>
    rw [List.mem_singleton.1 hd]
    exact (simpleLower_cases hI hS).1

theorem settled_lowerSigma (before after : Text) : Settled (lowerSigma before after) := by
  have hs : Settled 'ς' ∧ Settled 'σ' :=
    ⟨⟨by decide, by decide, forall_mem_of_all (by decide)⟩, ⟨by decide, by decide, forall_mem_of_all (by decide)⟩⟩
  rw [lowerSigma]
  split
  · exact hs.1
  · exact hs.2

/-! ### Texts -/

theorem settled_of_mem_lowerAfter (h : d ∈ lowerAfter before t) : Settled d := by
  induction t generalizing before with
  | nil => cases h
  | cons c t ih =>
    rw [lowerAfter, List.mem_append] at h
    rcases h with h | h
    · split at h
      · rw [List.mem_singleton.1 h]
        exact settled_lowerSigma before t
      · next hS => exact settled_of_mem_lowerChar hS h
    · exact ih h

theorem lowerAfter_of_settled (h : ∀ c ∈ t, Settled c) : lowerAfter before t = t := by
  induction t generalizing before with
  | nil => rfl
  | cons c t ih =>
    obtain ⟨hc, ht⟩ := List.forall_mem_cons.1 h
    rw [lowerAfter, if_neg hc.2.1, lowerChar, if_neg hc.1, simpleLower_of_settled hc, ih ht]
    rfl

/-- Lower-casing a lower-cased text changes nothing. -/
theorem lowercase_lowercase (t : Text) : lowercase (lowercase t) = lowercase t :=
  lowerAfter_of_settled fun _ hc => settled_of_mem_lowerAfter hc

theorem lowerAfter_eq_of_lt (h : ∀ d ∈ lowerAfter before t, d.toNat < 0x5b) : lowerAfter before t = t := by
  induction t generalizing before with
  | nil => rfl
  | cons c t ih =>
    rw [lowerAfter, List.forall_mem_append] at h
    obtain ⟨hc, ht⟩ := h
    rw [lowerAfter, ih ht]
    have letters : ∀ d ∈ ['i', 'ς', 'σ'], 0x5b ≤ d.toNat := forall_mem_of_all (by decide)
    split at hc
    · have := hc _ List.mem_cons_self
      have hl : lowerSigma before t ∈ ['i', 'ς', 'σ'] := by
        rw [lowerSigma]
        split <;> simp
      have := letters _ hl
      omega
    · next hS =>
      rw [if_neg hS]
      rw [lowerChar] at hc ⊢
      split at hc
      · have := hc 'i' List.mem_cons_self
        have := letters 'i' List.mem_cons_self
        omega
      · next hI =>
        rw [if_neg hI]
        have := hc _ List.mem_cons_self
        rcases (simpleLower_cases hI hS).2 with h | h
        · rw [h]
          rfl
        · omega

/-- A text whose lower case has no character past the capitals of ASCII is its own lower case. -/
theorem lowercase_eq_of_lt (h : ∀ d ∈ lowercase t, d.toNat < 0x5b) : lowercase t = t := lowerAfter_eq_of_lt h

end GenericUri.Unicode
