import GenericUri.Proofs.Grammar
import GenericUri.Proofs.IpAddress
import Mathlib.Tactic.IntervalCases

/-!
# AddressGrammar — the readers of addresses and their rules

What the readers of octets, groups and addresses accept is what the rules derive.  The rule for an address of version 6
has one alternative for each number of groups after the elision; each says how many groups may stand before it.  Taken
together they say that the groups on both sides are fewer than eight, an address of version 4 at the end counting as
two (`mem_ipv6address`), and this is what the readers ask for.
-/

namespace GenericUri.Grammar

open Computability

variable {l : Language Char} {t : Text} {ts : List Text} {n : ℕ}

/-! ### Octets and addresses of version 4 -/

theorem mem_range {first last : Char} :
    t ∈ range first last ↔ ∃ c, t = [c] ∧ first.toNat ≤ c.toNat ∧ c.toNat ≤ last.toNat :=
  Iff.rfl

theorem mem_range_mul {first last : Char} :
    t ∈ range first last * l ↔ ∃ c r, t = c :: r ∧ first.toNat ≤ c.toNat ∧ c.toNat ≤ last.toNat ∧ r ∈ l := by
  rw [Language.mem_mul]
  constructor
  · rintro ⟨a, ⟨c, rfl, h1, h2⟩, r, hr, rfl⟩
    exact ⟨c, r, rfl, h1, h2, hr⟩
  · rintro ⟨c, r, rfl, h1, h2, hr⟩
    exact ⟨[c], ⟨c, rfl, h1, h2⟩, r, hr, rfl⟩

/-- The five alternatives for an octet, by the number of digits. -/
theorem mem_decOctet :
    t ∈ decOctet ↔ (∃ c, t = [c] ∧ 48 ≤ c.toNat ∧ c.toNat ≤ 57) ∨
      (∃ c d, t = [c, d] ∧ 49 ≤ c.toNat ∧ c.toNat ≤ 57 ∧ 48 ≤ d.toNat ∧ d.toNat ≤ 57) ∨
        ∃ c d e, t = [c, d, e] ∧ 48 ≤ d.toNat ∧ d.toNat ≤ 57 ∧ 48 ≤ e.toNat ∧ e.toNat ≤ 57 ∧
          (c.toNat = 49 ∨ c.toNat = 50 ∧ (d.toNat ≤ 52 ∨ d.toNat = 53 ∧ e.toNat ≤ 53)) := by
  have hchar : ∀ {c d : Char}, c.toNat = d.toNat → c = d := Char.toNat_inj.1
  unfold decOctet digit
  simp only [Language.mem_add, mul_assoc, mem_char_mul, pow_two, mem_range_mul, mem_range]
  constructor
  · rintro ((((⟨c, rfl, hc⟩ | ⟨c, _, rfl, h1, h2, d, rfl, hd⟩) | ⟨_, ⟨d, _, rfl, h1, h2, e, rfl, he⟩, rfl⟩) |
      ⟨_, ⟨d, _, rfl, h1, h2, e, rfl, he⟩, rfl⟩) | ⟨_, ⟨_, ⟨e, rfl, he⟩, rfl⟩, rfl⟩)
    · exact .inl ⟨c, rfl, hc⟩
    · exact .inr (.inl ⟨c, d, rfl, h1, h2, hd⟩)
    · exact .inr (.inr ⟨'1', d, e, rfl, h1, h2, he.1, he.2, .inl rfl⟩)
    · exact .inr (.inr ⟨'2', d, e, rfl, h1, le_trans h2 (by decide), he.1, he.2, .inr ⟨rfl, .inl h2⟩⟩)
    · exact .inr (.inr ⟨'2', '5', e, rfl, by decide, by decide, he.1, le_trans he.2 (by decide),
        .inr ⟨rfl, .inr ⟨rfl, he.2⟩⟩⟩)
  · rintro (⟨c, rfl, hc⟩ | ⟨c, d, rfl, h1, h2, hd⟩ | ⟨c, d, e, rfl, hd1, hd2, he1, he2, h⟩)
    · exact .inl (.inl (.inl (.inl ⟨c, rfl, hc⟩)))
    · exact .inl (.inl (.inl (.inr ⟨c, [d], rfl, h1, h2, d, rfl, hd⟩)))
    · rcases h with h | ⟨h, hd | ⟨hd, he⟩⟩
      · obtain rfl : c = '1' := hchar h
        exact .inl (.inl (.inr ⟨[d, e], ⟨d, [e], rfl, hd1, hd2, e, rfl, he1, he2⟩, rfl⟩))
      · obtain rfl : c = '2' := hchar h
        exact .inl (.inr ⟨[d, e], ⟨d, [e], rfl, hd1, hd, e, rfl, he1, he2⟩, rfl⟩)
      · obtain rfl : c = '2' := hchar h
        obtain rfl : d = '5' := hchar hd
        exact .inr ⟨['5', e], ⟨[e], ⟨e, rfl, he1, he⟩, rfl⟩, rfl⟩

theorem exists_octet_iff : (∃ o, Octet.ofText? t = some o) ↔ t ∈ decOctet := by
  have hread : (∃ o, Octet.ofText? t = some o) ↔ 1 ≤ t.length ∧ t.length ≤ 3 ∧ t.all Char.isDigit ∧
      (t.length = 1 ∨ t.head? ≠ some '0') ∧ decimalValue t < 256 := by
    unfold Octet.ofText?
    split
    · next h => exact ⟨fun _ => h, fun _ => ⟨_, rfl⟩⟩
    · next h => exact ⟨nofun, fun h' => absurd h' h⟩
  have hzero : ∀ c : Char, c = '0' ↔ c.toNat = 48 := fun c => Char.toNat_inj.symm
  rw [hread, mem_decOctet]
  rcases t with _ | ⟨c, _ | ⟨d, _ | ⟨e, _ | ⟨f, t⟩⟩⟩⟩
  · simp
  · simp [decimalValue, Nat.ofDigitChars, Char.isDigit_iff_toNat]
    omega
  · simp [decimalValue, Nat.ofDigitChars, Char.isDigit_iff_toNat, hzero]
    omega
  · simp [decimalValue, Nat.ofDigitChars, Char.isDigit_iff_toNat, hzero]
    omega
  · simp

theorem exists_ipv4_iff : (∃ ip, Ipv4.ofText? t = some ip) ↔ t ∈ ipv4address := by
  unfold ipv4address
  simp only [mul_assoc, mem_mul_char_mul, ← exists_octet_iff, Ipv4.ofText?_eq_some_iff]
  constructor
  · rintro ⟨ip, ts, hts, rfl⟩
    have hts : List.Forall₂ (fun t o => Octet.ofText? t = some o) ts [ip.a, ip.b, ip.c, ip.d] := hts
    rcases hts with _ | ⟨ha, _ | ⟨hb, _ | ⟨hc, _ | ⟨hd, ⟨⟩⟩⟩⟩⟩
    refine ⟨_, ⟨_, ha⟩, _, ⟨_, ⟨_, hb⟩, _, ⟨_, ⟨_, hc⟩, _, ⟨_, hd⟩, rfl⟩, rfl⟩, ?_⟩
    rw [Text.join_cons_cons, Text.join_cons_cons, Text.join_cons_cons, Text.join_singleton]
  · rintro ⟨ta, ⟨a, ha⟩, _, ⟨tb, ⟨b, hb⟩, _, ⟨tc, ⟨c, hc⟩, td, ⟨d, hd⟩, rfl⟩, rfl⟩, rfl⟩
    refine ⟨⟨a, b, c, d⟩, [ta, tb, tc, td], .cons ha (.cons hb (.cons hc (.cons hd .nil))), ?_⟩
    rw [Text.join_cons_cons, Text.join_cons_cons, Text.join_cons_cons, Text.join_singleton]

/-! ### Groups -/

theorem exists_hexadectet_iff : (∃ g, Hexadectet.ofText? t = some g) ↔ t ∈ h16 := by
  have hdigits : (∃ ds, t.mapM hexValue? = some ds) ↔ ∀ c ∈ t, (hexValue? c).isSome = true := by
    simp only [mapM_eq_some_iff, exists_forall₂_iff, Option.isSome_iff_exists]
  have hrule : t ∈ h16 ↔ (1 ≤ t.length ∧ t.length ≤ 4) ∧ ∀ c ∈ t, (hexValue? c).isSome = true := by
    show (∃ k, 1 ≤ k ∧ k ≤ 4 ∧ t ∈ hexdig ^ k) ↔ _
    simp only [isClass_hexdig.mem_pow]
    constructor
    · rintro ⟨k, h1, h4, rfl, h⟩
      exact ⟨⟨h1, h4⟩, h⟩
    · rintro ⟨⟨h1, h4⟩, h⟩
      exact ⟨t.length, h1, h4, rfl, h⟩
  rw [hrule, ← hdigits]
  unfold Hexadectet.ofText?
  split
  · next hlen =>
    constructor
    · rintro ⟨g, hg⟩
      obtain ⟨ds, hds, -⟩ := Option.map_eq_some_iff.1 hg
      exact ⟨hlen, ds, hds⟩
    · rintro ⟨-, ds, hds⟩
      exact ⟨_, Option.map_eq_some_iff.2 ⟨ds, hds, rfl⟩⟩
  · next hlen => exact ⟨nofun, fun h => absurd h.1 hlen⟩

theorem exists_spells_iff : (∃ gs, Groups.Spells ts gs) ↔ ∀ t ∈ ts, t ∈ h16 := by
  unfold Groups.Spells
  simp only [exists_forall₂_iff, exists_hexadectet_iff]

/-- Groups with a colon after each. -/
theorem mem_closed_pow :
    t ∈ (h16 * char ':') ^ n ↔ ∃ ts : List Text, ts.length = n ∧ (∀ t ∈ ts, t ∈ h16) ∧ t = Groups.closed ts := by
  induction n generalizing t with
  | zero =>
    rw [pow_zero, Language.mem_one]
    constructor
    · rintro rfl
      exact ⟨[], rfl, nofun, rfl⟩
    · rintro ⟨ts, hlen, -, rfl⟩
      rw [List.length_eq_zero_iff.1 hlen]
      rfl
  | succ n ih =>
    rw [pow_succ', mul_assoc, mem_mul_char_mul]
    simp only [ih]
    constructor
    · rintro ⟨g, hg, _, ⟨ts, hlen, hts, rfl⟩, rfl⟩
      refine ⟨g :: ts, ?_, List.forall_mem_cons.2 ⟨hg, hts⟩, ?_⟩
      · rw [List.length_cons, hlen]
      · simp [Groups.closed]
    · rintro ⟨ts, hlen, hts, rfl⟩
      cases ts with
      | nil => cases hlen
      | cons g ts =>
        obtain ⟨hg, hts⟩ := List.forall_mem_cons.1 hts
        refine ⟨g, hg, _, ⟨ts, Nat.succ.inj hlen, hts, rfl⟩, ?_⟩
        simp [Groups.closed]

/-- At most `n` groups between colons. -/
def groupsUpTo (n : ℕ) : Language Char :=
  fun t => ∃ ts : List Text, ts.length ≤ n ∧ (∀ t ∈ ts, t ∈ h16) ∧ t = Text.join ':' ts

theorem groupsUpTo_zero : groupsUpTo 0 = 1 := by
  ext t
  rw [Language.mem_one]
  constructor
  · rintro ⟨ts, hlen, -, rfl⟩
    rw [List.length_eq_zero_iff.1 (Nat.le_zero.1 hlen)]
    rfl
  · rintro rfl
    exact ⟨[], le_rfl, nofun, rfl⟩

/-- The groups before an elision: the rule for them is one for some number of groups, or none. -/
theorem groupsUpTo_succ (n : ℕ) : groupsUpTo (n + 1) = opt (atMost n (h16 * char ':') * h16) := by
  ext t
  rw [mem_opt, Language.mem_mul]
  constructor
  · rintro ⟨ts, hlen, hts, rfl⟩
    rcases List.eq_nil_or_concat ts with rfl | ⟨front, g, rfl⟩
    · exact .inl rfl
    · rw [List.concat_eq_append] at hlen hts ⊢
      obtain ⟨hfront, hg⟩ := List.forall_mem_append.1 hts
      rw [List.length_append, List.length_singleton] at hlen
      refine .inr ⟨Groups.closed front, ⟨front.length, by omega, mem_closed_pow.2 ⟨front, rfl, hfront, rfl⟩⟩, g,
        hg g (List.mem_singleton_self g), ?_⟩
      rw [Groups.join_concat]
  · rintro (rfl | ⟨_, ⟨k, hk, hclosed⟩, g, hg, rfl⟩)
    · exact ⟨[], Nat.zero_le _, nofun, rfl⟩
    · obtain ⟨front, rfl, hfront, rfl⟩ := mem_closed_pow.1 hclosed
      refine ⟨front ++ [g], ?_, List.forall_mem_append.2 ⟨hfront, ?_⟩, ?_⟩
      · rw [List.length_append, List.length_singleton]
        omega
      · exact List.forall_mem_singleton.2 hg
      · rw [Groups.join_concat]

theorem groupsUpTo_one : groupsUpTo 1 = opt h16 := by
  have hnone : atMost 0 (h16 * char ':') = 1 := by
    ext t
    constructor
    · rintro ⟨k, hk, ht⟩
      rwa [Nat.le_zero.1 hk, pow_zero] at ht
    · intro ht
      exact ⟨0, le_rfl, by rwa [pow_zero]⟩
  rw [groupsUpTo_succ, hnone, one_mul]

/-- The alternatives with an elision: `k` groups and the last two leave room for up to `5 - k` groups before it. -/
theorem mem_ipv6address_iff :
    t ∈ ipv6address ↔ t ∈ (h16 * char ':') ^ 6 * ls32 ∨
      (∃ k ≤ 5, t ∈ groupsUpTo (5 - k) * (elision * ((h16 * char ':') ^ k * ls32))) ∨
        t ∈ groupsUpTo 6 * (elision * h16) ∨ t ∈ groupsUpTo 7 * elision := by
  have hrule : ipv6address = (h16 * char ':') ^ 6 * ls32 +
      groupsUpTo 0 * (elision * ((h16 * char ':') ^ 5 * ls32)) +
      groupsUpTo 1 * (elision * ((h16 * char ':') ^ 4 * ls32)) +
      groupsUpTo 2 * (elision * ((h16 * char ':') ^ 3 * ls32)) +
      groupsUpTo 3 * (elision * ((h16 * char ':') ^ 2 * ls32)) +
      groupsUpTo 4 * (elision * ((h16 * char ':') ^ 1 * ls32)) +
      groupsUpTo 5 * (elision * ((h16 * char ':') ^ 0 * ls32)) +
      groupsUpTo 6 * (elision * h16) + groupsUpTo 7 * elision := by
    unfold ipv6address
    rw [groupsUpTo_zero, groupsUpTo_one, groupsUpTo_succ 1, groupsUpTo_succ 2, groupsUpTo_succ 3, groupsUpTo_succ 4,
      groupsUpTo_succ 5, groupsUpTo_succ 6]
    simp only [one_mul, pow_zero, pow_one, mul_assoc]
  rw [hrule]
  simp only [Language.mem_add]
  constructor
  · rintro ((((((((h | h) | h) | h) | h) | h) | h) | h) | h)
    · exact .inl h
    · exact .inr (.inl ⟨5, by decide, h⟩)
    · exact .inr (.inl ⟨4, by decide, h⟩)
    · exact .inr (.inl ⟨3, by decide, h⟩)
    · exact .inr (.inl ⟨2, by decide, h⟩)
    · exact .inr (.inl ⟨1, by decide, h⟩)
    · exact .inr (.inl ⟨0, by decide, h⟩)
    · exact .inr (.inr (.inl h))
    · exact .inr (.inr (.inr h))
  · rintro (h | ⟨k, hk, h⟩ | h | h)
    · simp only [h, true_or]
    · interval_cases k <;> simp only [h, true_or, or_true]
    · simp only [h, true_or, or_true]
    · simp only [h, or_true]

theorem mem_groupsUpTo_mul {m : Language Char} :
    t ∈ groupsUpTo n * (elision * m) ↔ ∃ ls r, ls.length ≤ n ∧ (∀ t ∈ ls, t ∈ h16) ∧ r ∈ m ∧
      t = Text.join ':' ls ++ ':' :: ':' :: r := by
  unfold elision
  rw [mul_assoc, mem_mul_char_mul]
  constructor
  · rintro ⟨_, ⟨ls, hlen, hls, rfl⟩, _, hlast, rfl⟩
    obtain ⟨r, hr, rfl⟩ := mem_char_mul.1 hlast
    exact ⟨ls, r, hlen, hls, hr, rfl⟩
  · rintro ⟨ls, r, hlen, hls, hr, rfl⟩
    exact ⟨_, ⟨ls, hlen, hls, rfl⟩, _, mem_char_mul.2 ⟨r, hr, rfl⟩, rfl⟩

/-- The last two groups are groups like the others, or an address of version 4. -/
theorem mem_pow_mul_ls32 :
    t ∈ (h16 * char ':') ^ n * ls32 ↔
      (∃ ts : List Text, ts.length = n + 2 ∧ (∀ t ∈ ts, t ∈ h16) ∧ t = Text.join ':' ts) ∨
        ∃ (ts : List Text) (last : Text), ts.length = n ∧ (∀ t ∈ ts, t ∈ h16) ∧ last ∈ ipv4address ∧
          t = Groups.closed ts ++ last := by
  unfold ls32
  rw [Language.mem_mul]
  constructor
  · rintro ⟨front, hfront, last, hlast, rfl⟩
    obtain ⟨ts, hlen, hts, rfl⟩ := mem_closed_pow.1 hfront
    rcases (Language.mem_add _ _ _).1 hlast with hlast | hlast
    · rw [mul_assoc, mem_mul_char_mul] at hlast
      obtain ⟨x, hx, y, hy, rfl⟩ := hlast
      refine .inl ⟨ts ++ [x, y], ?_, ?_, ?_⟩
      · rw [List.length_append, hlen]
        rfl
      · refine List.forall_mem_append.2 ⟨hts, List.forall_mem_cons.2 ⟨hx, List.forall_mem_singleton.2 hy⟩⟩
      · rw [Groups.join_concat_concat, List.append_assoc]
    · exact .inr ⟨ts, last, hlen, hts, hlast, rfl⟩
  · rintro (⟨ts, hlen, hts, rfl⟩ | ⟨ts, last, hlen, hts, hlast, rfl⟩)
    · obtain ⟨front, y, rfl⟩ : ∃ front y, ts = front ++ [y] := by
        rcases List.eq_nil_or_concat ts with rfl | ⟨front, y, rfl⟩
        · cases hlen
        · exact ⟨front, y, List.concat_eq_append⟩
      obtain ⟨front, x, rfl⟩ : ∃ front' x, front = front' ++ [x] := by
        rcases List.eq_nil_or_concat front with rfl | ⟨front', x, rfl⟩
        · cases hlen
        · exact ⟨front', x, List.concat_eq_append⟩
      rw [List.append_assoc] at hlen hts ⊢
      obtain ⟨hfront, hlast⟩ := List.forall_mem_append.1 hts
      refine ⟨Groups.closed front, mem_closed_pow.2 ⟨front, ?_, hfront, rfl⟩, x ++ ':' :: y, .inl ?_, ?_⟩
      · rw [List.length_append] at hlen
        exact Nat.add_right_cancel hlen
      · show x ++ ':' :: y ∈ h16 * char ':' * h16
        rw [mul_assoc, mem_mul_char_mul]
        exact ⟨x, hlast x (by simp), y, hlast y (by simp), rfl⟩
      · show _ = Text.join ':' (front ++ [x, y])
        rw [Groups.join_concat_concat, List.append_assoc]
    · exact ⟨_, mem_closed_pow.2 ⟨ts, hlen, hts, rfl⟩, last, .inr hlast, rfl⟩

/-- An address of version 6 by its groups: eight, or fewer around an elision, where an address of version 4 at the end
is two of them. -/
theorem mem_ipv6address :
    t ∈ ipv6address ↔
      (∃ ts : List Text, ts.length = 8 ∧ (∀ t ∈ ts, t ∈ h16) ∧ t = Text.join ':' ts) ∨
      (∃ (ts : List Text) (last : Text), ts.length = 6 ∧ (∀ t ∈ ts, t ∈ h16) ∧ last ∈ ipv4address ∧
        t = Groups.closed ts ++ last) ∨
      (∃ ls rs : List Text, ls.length + rs.length < 8 ∧ (∀ t ∈ ls, t ∈ h16) ∧ (∀ t ∈ rs, t ∈ h16) ∧
        t = Text.join ':' ls ++ ':' :: ':' :: Text.join ':' rs) ∨
      ∃ (ls rs : List Text) (last : Text), ls.length + rs.length < 6 ∧ (∀ t ∈ ls, t ∈ h16) ∧ (∀ t ∈ rs, t ∈ h16) ∧
        last ∈ ipv4address ∧ t = Text.join ':' ls ++ ':' :: ':' :: (Groups.closed rs ++ last) := by
  have hnone : ∀ n, groupsUpTo n * elision = groupsUpTo n * (elision * 1) := fun n => by rw [mul_one]
  rw [mem_ipv6address_iff, mem_pow_mul_ls32, hnone]
  simp only [mem_groupsUpTo_mul, mem_pow_mul_ls32, Language.mem_one]
  constructor
  · rintro ((h | h) | ⟨k, hk, ls, r, hlen, hls, ⟨rs, hk', hrs, rfl⟩ | ⟨rs, last, hk', hrs, hlast, rfl⟩, rfl⟩ |
      ⟨ls, r, hlen, hls, hr, rfl⟩ | ⟨ls, r, hlen, hls, rfl, rfl⟩)
    · exact .inl h
    · exact .inr (.inl h)
    · exact .inr (.inr (.inl ⟨ls, rs, by omega, hls, hrs, rfl⟩))
    · exact .inr (.inr (.inr ⟨ls, rs, last, by omega, hls, hrs, hlast, rfl⟩))
    · refine .inr (.inr (.inl ⟨ls, [r], ?_, hls, List.forall_mem_singleton.2 hr, ?_⟩))
      · rw [List.length_singleton]
        omega
      · rw [Text.join_singleton]
    · exact .inr (.inr (.inl ⟨ls, [], by rw [List.length_nil]; omega, hls, nofun, rfl⟩))
  · rintro (h | h | ⟨ls, rs, hlen, hls, hrs, rfl⟩ | ⟨ls, rs, last, hlen, hls, hrs, hlast, rfl⟩)
    · exact .inl (.inl h)
    · exact .inl (.inr h)
    · -- no group, one group, or the last two of more
      rcases rs with _ | ⟨x, _ | ⟨y, rs⟩⟩
      · exact .inr (.inr (.inr ⟨ls, [], Nat.le_of_lt_succ hlen, hls, rfl, rfl⟩))
      · rw [List.length_singleton] at hlen
        refine .inr (.inr (.inl ⟨ls, x, by omega, hls, hrs x (List.mem_singleton_self x), ?_⟩))
        rw [Text.join_singleton]
      · rw [List.length_cons, List.length_cons] at hlen
        exact .inr (.inl ⟨rs.length, by omega, ls, _, by omega, hls, .inl ⟨x :: y :: rs, rfl, hrs, rfl⟩, rfl⟩)
    · exact .inr (.inl ⟨rs.length, by omega, ls, _, by omega, hls, .inr ⟨rs, last, rfl, hrs, hlast, rfl⟩, rfl⟩)

/-! ### The readers -/

/-- Some groups fill the room that an elision leaves. -/
theorem exists_filled {n : ℕ} {left right : List Hexadectet} (h : left.length + right.length < n) :
    ∃ g : Groups n, g.1 = left ++ List.replicate (n - (left.length + right.length)) 0 ++ right := by
  refine ⟨⟨left ++ List.replicate (n - (left.length + right.length)) 0 ++ right, ?_⟩, rfl⟩
  simp only [List.length_append, List.length_replicate]
  omega

/-- Between them, the two readers accept what the rule derives. -/
theorem exists_ipv6_iff :
    ((∃ g, Groups.ofText? t = some g) ∨ ∃ g last, Groups.ofDottedText? t = some (g, last)) ↔ t ∈ ipv6address := by
  rw [mem_ipv6address]
  simp only [Groups.ofText?_eq_some_iff, Groups.ofDottedText?_eq_some_iff, ← exists_ipv4_iff, ← exists_spells_iff]
  constructor
  · rintro (⟨g, ⟨ts, hts, rfl⟩ | ⟨ls, rs, left, right, hls, hrs, rfl, hlen, -⟩⟩ |
      ⟨g, ip, last, hip, ⟨ts, hts, rfl⟩ | ⟨ls, rs, left, right, hls, hrs, rfl, hlen, -⟩⟩)
    · exact .inl ⟨ts, hts.length_eq.trans g.2, ⟨_, hts⟩, rfl⟩
    · refine .inr (.inr (.inl ⟨ls, rs, ?_, ⟨left, hls⟩, ⟨right, hrs⟩, rfl⟩))
      rw [hls.length_eq, hrs.length_eq]
      exact hlen
    · exact .inr (.inl ⟨ts, last, hts.length_eq.trans g.2, ⟨_, hts⟩, ⟨ip, hip⟩, rfl⟩)
    · refine .inr (.inr (.inr ⟨ls, rs, last, ?_, ⟨left, hls⟩, ⟨right, hrs⟩, ⟨ip, hip⟩, ?_⟩))
      · rw [hls.length_eq, hrs.length_eq]
        exact hlen
      · simp
  · rintro (⟨ts, hlen, ⟨gs, hgs⟩, rfl⟩ | ⟨ts, last, hlen, ⟨gs, hgs⟩, ⟨ip, hip⟩, rfl⟩ |
      ⟨ls, rs, hlen, ⟨left, hls⟩, ⟨right, hrs⟩, rfl⟩ | ⟨ls, rs, last, hlen, ⟨left, hls⟩, ⟨right, hrs⟩, ⟨ip, hip⟩, rfl⟩)
    · exact .inl ⟨⟨gs, hgs.length_eq.symm.trans hlen⟩, .inl ⟨ts, hgs, rfl⟩⟩
    · exact .inr ⟨⟨gs, hgs.length_eq.symm.trans hlen⟩, ip, last, hip, .inl ⟨ts, hgs, rfl⟩⟩
    · rw [hls.length_eq, hrs.length_eq] at hlen
      obtain ⟨g, hg⟩ := exists_filled hlen
      exact .inl ⟨g, .inr ⟨ls, rs, left, right, hls, hrs, rfl, hlen, hg⟩⟩
    · rw [hls.length_eq, hrs.length_eq] at hlen
      obtain ⟨g, hg⟩ := exists_filled hlen
      exact .inr ⟨g, ip, last, hip, .inr ⟨ls, rs, left, right, hls, hrs, by simp, hlen, hg⟩⟩

end GenericUri.Grammar
