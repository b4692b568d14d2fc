import GenericUri.Proofs.AddressGrammar
import GenericUri.Proofs.Reachable

/-!
# DottedName — names and addresses of version 4

The text of an address of version 4 could be read as a name too.  It is always the address: a name is split off only
where no address can be read (`Host.ofName_eq_ipv4_iff`, `Host.ofName_of_ne_text`), this is decided on the decoded name
(`Host.parse_eq_ok_iff_decode`), and lower-casing makes no address of what was none (`Host.ne_text_of_reachable`).

So each address has one text (`Host.ipv4_iff_eq_text`).  Numbers past 255, leading zeros, a sign, or a number more or
less leave a name.
-/

namespace GenericUri.Host

variable {t name : Text} {ip : Ipv4} {h : Host}

/-! ### Decoded names -/

theorem ofName_eq_ipv4_iff : ofName name = ipv4 ip ↔ name = (ipv4 ip).text := by
  refine Iff.trans ?_ Ipv4.ofText?_eq_some_iff_eq_text
  unfold ofName
  split
  · next hip => rw [hip, ipv4.injEq, Option.some.injEq]
  · next hno =>
    rw [hno]
    exact iff_of_false nofun nofun

theorem ofName_of_ne_text (hne : ∀ ip, name ≠ (ipv4 ip).text) : ofName name = registeredName (Unicode.lowercase name) := by
  unfold ofName
  split
  · next ip hip => exact absurd (Ipv4.ofText?_eq_some_iff_eq_text.1 hip) (hne ip)
  · rfl

theorem ne_text_of_ofText? (hno : Ipv4.ofText? name = none) (ip : Ipv4) : name ≠ (ipv4 ip).text := by
  intro hname
  have hip : Ipv4.ofText? name = some ip := Ipv4.ofText?_eq_some_iff_eq_text.2 hname
  rw [hno] at hip
  cases hip

/-! ### Names as they are read -/

/-- Text that does not start with a bracket is the host of the name that it decodes to. -/
theorem parse_eq_ok_iff_decode (ht : t.head? ≠ some '[') :
    parse Host t = .ok h ↔ ∃ name, Percent.decode .registeredName t = .ok name ∧ ofName name = h := by
  rw [parse_eq_ok_iff_ofText?, ofText?_of_head?_ne ht, Option.map_eq_some_iff]
  simp only [toOption_eq_some_iff]

/-- Whatever operations led to a name, it is the text of no address. -/
theorem ne_text_of_reachable (hr : Reachable (.host (.registeredName name))) (ip : Ipv4) : name ≠ (ipv4 ip).text := by
  have hs : (registeredName name).Settled := hr.wellFormed
  exact ne_text_of_ofText? hs.1 ip

/-! ### One text for each address -/

theorem text_ipv4 (a b c d : Octet) :
    (ipv4 ⟨a, b, c, d⟩).text =
      decimal a.toNat ++ '.' :: (decimal b.toNat ++ '.' :: (decimal c.toNat ++ '.' :: decimal d.toNat)) := by
  show Text.join '.' [a.text, b.text, c.text, d.text] = _
  rw [Text.join_cons_cons, Text.join_cons_cons, Text.join_cons_cons, Text.join_singleton]
  rfl

/-- A name is an address of version 4 if it is the text of that address, four decimal numerals and dots, and a registered
name otherwise.  A text without a bracket at its start is read as an address if that is what it decodes to.  No name
that can be made is the text of an address. -/
theorem ipv4_iff_eq_text :
    (∀ (name : Text) (ip : Ipv4), ofName name = ipv4 ip ↔ name = (ipv4 ip).text) ∧
      (∀ name : Text, (∀ ip, name ≠ (ipv4 ip).text) → ofName name = registeredName (Unicode.lowercase name)) ∧
        (∀ (t : Text) (ip : Ipv4), t.head? ≠ some '[' →
          (parse Host t = .ok (ipv4 ip) ↔ Percent.decode .registeredName t = .ok (ipv4 ip).text)) ∧
          (∀ name : Text, Reachable (.host (.registeredName name)) → ∀ ip, name ≠ (ipv4 ip).text) ∧
            (∀ a b c d : Octet, (ipv4 ⟨a, b, c, d⟩).text =
              decimal a.toNat ++ '.' :: (decimal b.toNat ++ '.' :: (decimal c.toNat ++ '.' :: decimal d.toNat))) ∧
              ∀ t : Text, (∃ ip, t = (ipv4 ip).text) ↔ t ∈ Grammar.ipv4address := by
  refine ⟨fun _ _ => ofName_eq_ipv4_iff, fun _ => ofName_of_ne_text, ?_, fun _ => ne_text_of_reachable, text_ipv4, ?_⟩
  · intro t ip ht
    simp only [parse_eq_ok_iff_decode ht, ofName_eq_ipv4_iff, exists_eq_right]
  · intro t
    rw [← Grammar.exists_ipv4_iff]
    exact exists_congr fun ip => Ipv4.ofText?_eq_some_iff_eq_text.symm

/-- Escaped digits and dots make an address; a leading zero leaves a name, and so does a number past 255. -/
theorem ipv4_iff_eq_text_escaped :
    let t := "%31.2%2E3.25%35".toList
    let ip : Ipv4 := ⟨1, 2, 3, 255⟩
    let zero := "1.2.3.0255".toList
    let large := "1.2.3.256".toList
    (t.head? ≠ some '[' ∧ (∀ ip, zero ≠ (ipv4 ip).text) ∧ Reachable (.host (.registeredName large))) ∧
      parse Host t = .ok (ipv4 ip) ∧ ofName "1.2.3.255".toList = ipv4 ip ∧
        ofName zero = registeredName zero ∧ (∀ ip, large ≠ (ipv4 ip).text) ∧
          ("0.0.0.0".toList ∈ Grammar.ipv4address ∧ "1.2.3.4.5".toList ∉ Grammar.ipv4address ∧
            "1.2.3.+4".toList ∉ Grammar.ipv4address) := by
  intro t ip zero large
  obtain ⟨hname, hother, hparse, hreachable, -, hgrammar⟩ := ipv4_iff_eq_text
  have ht : t.head? ≠ some '[' := by decide
  have hzero : ∀ ip, zero ≠ (ipv4 ip).text := ne_text_of_ofText? (by decide)
  have hr : Reachable (.host (.registeredName large)) := by
    have hread : parse Host large = .ok (registeredName large) := by decide
    exact .hostParse hread
  refine ⟨⟨ht, hzero, hr⟩, (hparse t ip ht).2 (by decide), (hname _ ip).2 (by decide),
    (hother zero hzero).trans (by decide), hreachable large hr, (hgrammar _).1 ⟨⟨0, 0, 0, 0⟩, by decide⟩, ?_, ?_⟩
  · exact fun hm => ((hgrammar _).2 hm).elim (ne_text_of_ofText? (by decide))
  · exact fun hm => ((hgrammar _).2 hm).elim (ne_text_of_ofText? (by decide))

end GenericUri.Host
