import GenericUri.Proofs.AddressMeaning

/-!
# AddressSpelling — the last two groups in dots or in hex

An address of version 4 at the end of one of version 6 spells the two groups that its octets make, so hex numerals of
these groups may stand in its place.  The readers take different ways: the dotted text is read with two zeros in place
of the octets, which are put back when the address is asked for.  Both ways depend on what stands before the last two
groups in the same manner (`Host.ofLiteral?_dotted_iff`, `Host.ofLiteral?_hex_iff`).

Text that starts like a future address is read as one, and then too it does not matter which of the two spellings ends
it (`Host.exists_ofLiteral?_future_iff`).
-/

namespace GenericUri

/-! ### Octets in pairs -/

/-- Two octets make a group, the first counting most. -/
theorem Octet.toNat_pair (a b : Octet) : (a.toUInt16 * 256 + b.toUInt16).toNat = 256 * a.toNat + b.toNat := by
  have ha : a.toNat < 256 := a.toNat_lt
  have hb : b.toNat < 256 := b.toNat_lt
  rw [UInt16.toNat_add, UInt16.toNat_mul, UInt8.toNat_toUInt16, UInt8.toNat_toUInt16]
  show (a.toNat * 256 % 65536 + b.toNat) % 65536 = _
  omega

/-- The groups are those of the address: the number of each is written as that of its octets. -/
structure Ipv4.Makes (ip : Ipv4) (e f : Hexadectet) : Prop where
  first : e.toNat = 256 * ip.a.toNat + ip.b.toNat
  second : f.toNat = 256 * ip.c.toNat + ip.d.toNat

theorem Groups.withLast_eq {ip : Ipv4} {e f : Hexadectet} (h : ip.Makes e f) (g : Groups 6) :
    (g.withLast ip).1 = g.1 ++ [e, f] := by
  have he : e = ip.a.toUInt16 * 256 + ip.b.toUInt16 :=
    UInt16.toNat_inj.1 (h.first.trans (Octet.toNat_pair ip.a ip.b).symm)
  have hf : f = ip.c.toUInt16 * 256 + ip.d.toUInt16 :=
    UInt16.toNat_inj.1 (h.second.trans (Octet.toNat_pair ip.c ip.d).symm)
  rw [he, hf]
  rfl

/-- An address whose last two groups are written as octets is the one with the groups that the octets make. -/
theorem Host.toIpAddress?_ipv6Dotted {ip : Ipv4} {e f : Hexadectet} {g : Groups 6} {g8 : Groups 8} (h : ip.Makes e f)
    (hg : g8.1 = g.1 ++ [e, f]) : (ipv6Dotted g ip).toIpAddress? = some (.v6 g8) := by
  have hlast : g.withLast ip = g8 := Subtype.ext ((Groups.withLast_eq h g).trans hg.symm)
  rw [← hlast]
  rfl

namespace Host

variable {p x y : Text} {ip : Ipv4} {e f : Hexadectet} {h : Host}

/-! ### Addresses of version 6 -/

theorem colon_not_mem_ipv4 (ip : Ipv4) : ':' ∉ ip.text := Ipv4.not_mem_text (by decide) (by decide) ip

theorem startsFuture_append_iff (hp : p.getLast? = some ':') (s : Text) : startsFuture (p ++ s) ↔ startsFuture p := by
  have hne : p ≠ [] := by
    rintro rfl
    cases hp
  rw [startsFuture, startsFuture, List.head?_append_of_ne_nil _ hne]

/-- With an address of version 4 at the end, what stands before it decides. -/
theorem ofLiteral?_dotted_iff (hp : p.getLast? = some ':') (hv : ¬ startsFuture p) :
    ofLiteral? (p ++ ip.text) = some h ↔ ∃ g : Groups 6, Groups.Precedes p g.1 ∧ h = ipv6Dotted g ip := by
  constructor
  · intro hr
    rcases ofLiteral?_cases hr with ⟨v, version, address, hvV, ht, -, -⟩ | ⟨-, g, last, hg, rfl⟩ | ⟨-, hdot, -⟩
    · refine absurd ((startsFuture_append_iff hp ip.text).1 ?_) hv
      rw [ht]
      exact hvV.imp (congrArg some) (congrArg some)
    · obtain ⟨p', t, ht, hlast, hp'⟩ := Groups.ofDottedText?_eq_some_iff_precedes.1 hg
      rw [Ipv4.ofText?_eq_some_iff_eq_text] at hlast
      rw [hlast] at ht
      obtain ⟨rfl, htext⟩ := Groups.append_inj_of_getLast? hp hp'.getLast? (colon_not_mem_ipv4 ip)
        (colon_not_mem_ipv4 last) ht
      have hip : last = ip := by
        have := Ipv4.ofText?_text last
        rw [← htext, Ipv4.ofText?_text] at this
        exact (Option.some.inj this).symm
      exact ⟨g, hp', by rw [hip]⟩
    · exact absurd (List.mem_append_right p ip.dot_mem_text) hdot
  · rintro ⟨g, hg, rfl⟩
    exact ofLiteral?_dotted
      (Groups.ofDottedText?_eq_some_iff_precedes.2 ⟨p, ip.text, rfl, Ipv4.ofText?_text ip, hg⟩)

/-- With the two groups in hex at the end, what stands before them decides in the same manner. -/
theorem ofLiteral?_hex_iff (hp : p.getLast? = some ':') (hv : ¬ startsFuture p)
    (hx : Hexadectet.ofText? x = some e) (hy : Hexadectet.ofText? y = some f) (hip : ip.Makes e f) :
    ofLiteral? (p ++ (x ++ ':' :: y)) = some h ↔
      ∃ g : Groups 6, Groups.Precedes p g.1 ∧ h = ipv6 (g.withLast ip) := by
  have hread : ∀ g8, Groups.ofText? (p ++ (x ++ ':' :: y)) = some g8 ↔
      ∃ g : Groups 6, Groups.Precedes p g.1 ∧ g8 = g.withLast ip := by
    intro g8
    rw [← List.append_assoc, Groups.ofText?_append_pair_iff hp hx hy]
    simp only [Subtype.ext_iff, Groups.withLast_eq hip]
  constructor
  · intro hr
    rcases ofLiteral?_cases hr with ⟨v, version, address, hvV, ht, -, -⟩ | ⟨-, g, last, hg, -⟩ | ⟨-, -, g8, hg, rfl⟩
    · refine absurd ((startsFuture_append_iff hp (x ++ ':' :: y)).1 ?_) hv
      rw [ht]
      exact hvV.imp (congrArg some) (congrArg some)
    · -- after the last colon stands a hex numeral, and that is no address of version 4
      obtain ⟨p', t, ht, hlast, hp'⟩ := Groups.ofDottedText?_eq_some_iff_precedes.1 hg
      rw [Ipv4.ofText?_eq_some_iff_eq_text] at hlast
      have ht : p ++ x ++ [':'] ++ y = p' ++ last.text := by
        rw [← hlast, ← ht]
        simp
      obtain ⟨-, htext⟩ := Groups.append_inj_of_getLast? List.getLast?_concat hp'.getLast?
        (Groups.not_mem_of_ofText? hy (by decide)) (colon_not_mem_ipv4 last) ht
      refine absurd ?_ (Groups.not_mem_of_ofText? (c := '.') hy (by decide))
      rw [htext]
      exact last.dot_mem_text
    · obtain ⟨g, hp', rfl⟩ := (hread g8).1 hg
      exact ⟨g, hp', rfl⟩
  · rintro ⟨g, hg, rfl⟩
    exact ofLiteral?_groups ((hread _).2 ⟨g, hg, rfl⟩)

/-! ### Future addresses -/

/-- Text at the end of a future address does not matter, as long as it may stand there. -/
theorem exists_ofLiteral?_future_iff {v : Char} {q s : Text} (hv : v = 'v' ∨ v = 'V') (hq : q.getLast? = some ':')
    (hs : CharSet.userInfo.containsAll s = true) :
    (∃ h, ofLiteral? (v :: q ++ s) = some h) ↔ ∃ version address, q = version ++ '.' :: address ∧ version ≠ [] ∧
      CharSet.hexDigit.containsAll (Text.asciiUpper version) = true ∧ CharSet.userInfo.containsAll address = true := by
  have hcolon : ':' ∈ q := List.mem_of_getLast? hq
  constructor
  · rintro ⟨h, hr⟩
    have hstart : startsFuture (v :: q ++ s) := hv.imp (congrArg some) (congrArg some)
    rcases ofLiteral?_cases hr with ⟨w, version, address, -, ht, -, hf⟩ | ⟨hno, -⟩ | ⟨hno, -⟩
    · have ht : q ++ s = version ++ '.' :: address := (List.cons.inj ht).2
      have hversion : ':' ∉ version := fun hm => absurd (isHex_of_mem_version hf ':' hm) (by decide)
      obtain ⟨hne, hhex, -, huser, -⟩ := ofFuture_eq_ok_iff.1 hf
      rcases List.append_eq_append_iff.1 ht with ⟨r, rfl, -⟩ | ⟨r, rfl, hcut⟩
      · exact absurd (List.mem_append_left r hcolon) hversion
      · cases r with
        | nil => exact absurd (by simpa using hcolon) hversion
        | cons c r =>
          rw [List.cons_append] at hcut
          obtain ⟨rfl, rfl⟩ := List.cons.inj hcut
          rw [CharSet.containsAll, List.all_append, Bool.and_eq_true] at huser
          exact ⟨version, r, rfl, hne, hhex, huser.1⟩
    · exact absurd hstart hno
    · exact absurd hstart hno
  · rintro ⟨version, address, rfl, hne, hhex, huser⟩
    have haddress : address ≠ [] := by
      rintro rfl
      simp at hq
    have hf : ofFuture version (address ++ s) =
        .ok (ipvFuture (Text.asciiUpper version) (Text.asciiLower (address ++ s))) := by
      refine ofFuture_eq_ok_iff.2 ⟨hne, hhex, by simp [haddress], ?_, rfl⟩
      rw [CharSet.containsAll, List.all_append, Bool.and_eq_true]
      exact ⟨huser, hs⟩
    refine ⟨ipvFuture (Text.asciiUpper version) (Text.asciiLower (address ++ s)), ?_⟩
    rw [List.cons_append, List.append_assoc, List.cons_append]
    exact ofLiteral?_ofFuture hv hf

/-- Nothing that starts like a future address is an address of another kind. -/
theorem toIpAddress?_of_startsFuture {t : Text} (ht : startsFuture t) (hr : ofLiteral? t = some h) :
    h.toIpAddress? = none := by
  rcases ofLiteral?_cases hr with ⟨v, version, address, -, -, -, hf⟩ | ⟨hno, -⟩ | ⟨hno, -⟩
  · obtain ⟨-, -, -, -, rfl⟩ := ofFuture_eq_ok_iff.1 hf
    rfl
  · exact absurd ht hno
  · exact absurd ht hno

theorem userInfo_of_isHex {c : Char} (h : (hexValue? c).isSome) : CharSet.userInfo.contains c = true := by
  rcases Nat.lt_or_ge c.toNat 128 with hlt | hge
  · have hascii : ∀ c ∈ CharSet.everything.members, (hexValue? c).isSome → CharSet.userInfo.contains c = true :=
      forall_mem_of_all (by decide)
    exact hascii c (CharSet.mem_members.2 ⟨hlt, CharSet.contains_everything c⟩) h
  · rw [hexValue?_of_ge hge] at h
    cases h

theorem userInfo_ipv4 (ip : Ipv4) : CharSet.userInfo.containsAll ip.text = true := by
  refine List.all_eq_true.2 fun c hc => ?_
  rcases Ipv4.mem_of_ofText? (Ipv4.ofText?_text ip) hc with rfl | hd
  · decide
  · exact userInfo_of_isHex (Groups.isSome_hexValue?_of_isDigit hd)

theorem userInfo_hex (hx : Hexadectet.ofText? x = some e) (hy : Hexadectet.ofText? y = some f) :
    CharSet.userInfo.containsAll (x ++ ':' :: y) = true := by
  refine List.all_eq_true.2 fun c hc => ?_
  rw [List.mem_append, List.mem_cons] at hc
  rcases hc with hc | rfl | hc
  · exact userInfo_of_isHex (Groups.isHex_of_ofText? hx c hc)
  · decide
  · exact userInfo_of_isHex (Groups.isHex_of_ofText? hy c hc)

/-! ### Both spellings -/

theorem parse_bracketed_eq_ok_iff {t : Text} : parse Host ('[' :: t ++ [']']) = .ok h ↔ ofLiteral? t = some h := by
  rw [parse_eq_ok_iff_ofText?, ofText?_bracketed]

/-- After a colon it does not matter whether the last two groups are spelled as an address of version 4 or in hex, in
whatever hex spelling: both texts are hosts or neither is, and the hosts are the same address. -/
theorem parse_dotted_iff_hex (hp : p.getLast? = some ':') (hx : Hexadectet.Denotes x e)
    (hy : Hexadectet.Denotes y f) (hip : ip.Makes e f) :
    ((∃ h, parse Host ('[' :: (p ++ ip.text) ++ [']']) = .ok h) ↔
        ∃ h, parse Host ('[' :: (p ++ (x ++ ':' :: y)) ++ [']']) = .ok h) ∧
      ∀ h h', parse Host ('[' :: (p ++ ip.text) ++ [']']) = .ok h →
        parse Host ('[' :: (p ++ (x ++ ':' :: y)) ++ [']']) = .ok h' → h.toIpAddress? = h'.toIpAddress? := by
  rw [← Hexadectet.ofText?_eq_some_iff] at hx hy
  simp only [parse_bracketed_eq_ok_iff]
  by_cases hv : startsFuture p
  · obtain ⟨v, q, hvV, rfl⟩ : ∃ v q, (v = 'v' ∨ v = 'V') ∧ p = v :: q := by
      rcases hv with hv | hv
      · obtain ⟨q, rfl⟩ := List.head?_eq_some_iff.1 hv
        exact ⟨'v', q, .inl rfl, rfl⟩
      · obtain ⟨q, rfl⟩ := List.head?_eq_some_iff.1 hv
        exact ⟨'V', q, .inr rfl, rfl⟩
    have hq : q.getLast? = some ':' := by
      cases q with
      | nil => rcases hvV with rfl | rfl <;> simp at hp
      | cons c q => simpa [List.getLast?_cons_cons] using hp
    refine ⟨?_, fun h h' hr hr' => ?_⟩
    · rw [exists_ofLiteral?_future_iff hvV hq (userInfo_ipv4 ip), exists_ofLiteral?_future_iff hvV hq (userInfo_hex hx hy)]
    · rw [toIpAddress?_of_startsFuture ((startsFuture_append_iff hp _).2 hv) hr,
        toIpAddress?_of_startsFuture ((startsFuture_append_iff hp _).2 hv) hr']
  · simp only [ofLiteral?_dotted_iff hp hv, ofLiteral?_hex_iff hp hv hx hy hip]
    constructor
    · constructor
      · rintro ⟨-, g, hg, -⟩
        exact ⟨_, g, hg, rfl⟩
      · rintro ⟨-, g, hg, -⟩
        exact ⟨_, g, hg, rfl⟩
    · rintro h h' ⟨g, hg, rfl⟩ ⟨g', hg', rfl⟩
      rw [hg.unique hg']
      exact toIpAddress?_ipv6Dotted hip (Groups.withLast_eq hip g')

theorem parse_dotted_iff_hex_elided :
    let p := "a::".toList
    let groups : Groups 8 := ⟨[10, 0, 0, 0, 0, 0, 0xc000, 0x201], rfl⟩
    let h := ipv6Dotted ⟨[10, 0, 0, 0, 0, 0], rfl⟩ ⟨192, 0, 2, 1⟩
    let h' := ipv6 groups
    (p.getLast? = some ':' ∧ Hexadectet.Denotes "C000".toList 0xc000 ∧ Hexadectet.Denotes "0201".toList 0x201 ∧
        Ipv4.Makes ⟨192, 0, 2, 1⟩ 0xc000 0x201) ∧
      (parse Host "[a::192.0.2.1]".toList = .ok h ∧ parse Host "[a::C000:0201]".toList = .ok h') ∧
        h.toIpAddress? = h'.toIpAddress? ∧ h.toIpAddress? = some (.v6 groups) := by
  intro p groups h h'
  have hp : p.getLast? = some ':' := by decide
  have hx : Hexadectet.Denotes "C000".toList 0xc000 := Hexadectet.ofText?_eq_some_iff.1 (by decide)
  have hy : Hexadectet.Denotes "0201".toList 0x201 := Hexadectet.ofText?_eq_some_iff.1 (by decide)
  have hip : Ipv4.Makes ⟨192, 0, 2, 1⟩ 0xc000 0x201 := ⟨by decide, by decide⟩
  have hdotted : parse Host "[a::192.0.2.1]".toList = .ok h := by decide
  have hhex : parse Host "[a::C000:0201]".toList = .ok h' := by decide
  have hsame := (parse_dotted_iff_hex hp hx hy hip).2 h h' hdotted hhex
  exact ⟨⟨hp, hx, hy, hip⟩, ⟨hdotted, hhex⟩, hsame, toIpAddress?_ipv6Dotted hip rfl⟩

end Host
end GenericUri
