import GenericUri.Authority
import GenericUri.Proofs.Components
import GenericUri.Proofs.IpAddress
import GenericUri.Proofs.Lowercase

/-!
# Authority — hosts and authorities read back

A host is settled (`Host.Settled`) if its name is lower-cased and no address, or its parts are spelled as a future
address has them.  Every way to a host leaves a settled one, and a settled host is read back.

In an authority the separators are unambiguous.  A host in brackets ends at its only closing bracket, and any other
holds no colon (`Host.shape_of_ofText?`).
-/

namespace GenericUri

/-! ### Text without escapes -/

namespace Percent

variable {allowed : CharSet} {t : Text}

theorem encode_of_plain (h : ∀ c ∈ t, c ≠ '%' ∧ allowed.contains c = true) : encode allowed t = t := by
  induction t with
  | nil => rfl
  | cons c t ih =>
    obtain ⟨hc, ht⟩ := List.forall_mem_cons.1 h
    have h1 : encode allowed (c :: t) = encodeChar allowed c ++ encode allowed t := List.flatMap_cons
    rw [h1, ih ht, encodeChar, if_pos hc]
    rfl

/-- Text without escapes stands for itself. -/
theorem decode_of_plain (h : ∀ c ∈ t, c ≠ '%' ∧ allowed.contains c = true) : decode allowed t = .ok t := by
  have := decode_encode allowed t
  rwa [encode_of_plain h] at this

end Percent

namespace Host

variable {h : Host} {t version address : Text}

/-! ### Settled hosts -/

theorem ofFuture_eq_ok_iff :
    ofFuture version address = .ok h ↔ version ≠ [] ∧ CharSet.hexDigit.containsAll (Text.asciiUpper version) = true ∧
      address ≠ [] ∧ CharSet.userInfo.containsAll address = true ∧
      h = ipvFuture (Text.asciiUpper version) (Text.asciiLower address) := by
  rw [← CharSet.verify_eq_ok_iff (f := .version), ← CharSet.verify_eq_ok_iff (f := .address), ofFuture]
  by_cases hv : version = []
  · simp [hv, bind, Except.bind, throw, throwThe, MonadExceptOf.throw]
  cases hvs : CharSet.hexDigit.verify (Text.asciiUpper version) .version with
  | error e => simp [hv, hvs, bind, Except.bind]
  | ok u =>
    by_cases ha : address = []
    · simp [hv, hvs, ha, bind, Except.bind, throw, throwThe, MonadExceptOf.throw]
    cases has : CharSet.userInfo.verify address .address with
    | error e => simp [hv, hvs, ha, bind, Except.bind]
    | ok u => simp [hv, hvs, ha, bind, Except.bind, pure, Except.pure, eq_comm]

/-- A name is lower-cased and no address; a future address is spelled as it is held. -/
def Settled : Host → Prop
  | registeredName name => Ipv4.ofText? name = none ∧ Unicode.lowercase name = name
  | ipvFuture version address => ofFuture version address = .ok (ipvFuture version address)
  | _ => True

/-- Lower-casing a name makes no address of it. -/
theorem settled_ofName (name : Text) : (ofName name).Settled := by
  rw [ofName]
  split
  · trivial
  · next hn =>
    refine ⟨?_, Unicode.lowercase_lowercase name⟩
    cases h4 : Ipv4.ofText? (Unicode.lowercase name) with
    | none => rfl
    | some ip =>
      have hlt : ∀ d ∈ Unicode.lowercase name, d.toNat < 0x5b := by
        intro d hd
        rcases Ipv4.mem_of_ofText? h4 hd with rfl | h
        · decide
        · have : d.val ≤ 57 := (by simpa [Char.isDigit] using h : _ ∧ _).2
          exact Nat.lt_of_le_of_lt this (by decide)
      rw [Unicode.lowercase_eq_of_lt hlt, hn] at h4
      cases h4

theorem toUpper_of_hexDigit : ∀ c : Char, CharSet.hexDigit.contains c = true → c.toUpper = c :=
  CharSet.forall_of_contains rfl (by decide)

theorem toLower_of_userInfo : ∀ c : Char, CharSet.userInfo.contains c = true →
    CharSet.userInfo.contains c.toLower = true ∧ c.toLower.toLower = c.toLower :=
  CharSet.forall_of_contains rfl (by decide)

theorem settled_of_ofFuture (hf : ofFuture version address = .ok h) : h.Settled := by
  obtain ⟨hv, hvs, ha, has, rfl⟩ := ofFuture_eq_ok_iff.1 hf
  have hup : ∀ c ∈ Text.asciiUpper version, c.toUpper = c := fun c hc =>
    toUpper_of_hexDigit c (List.all_eq_true.1 hvs c hc)
  have hlow : ∀ c ∈ address, CharSet.userInfo.contains c.toLower = true ∧ c.toLower.toLower = c.toLower :=
    fun c hc => toLower_of_userInfo c (List.all_eq_true.1 has c hc)
  have hupper : Text.asciiUpper (Text.asciiUpper version) = Text.asciiUpper version :=
    (List.map_congr_left hup).trans (List.map_id _)
  have hlower : Text.asciiLower (Text.asciiLower address) = Text.asciiLower address := by
    change (address.map Char.toLower).map Char.toLower = address.map Char.toLower
    rw [List.map_map]
    exact List.map_congr_left fun c hc => (hlow c hc).2
  refine ofFuture_eq_ok_iff.2 ⟨?_, ?_, ?_, ?_, ?_⟩
  · simpa [Text.asciiUpper] using hv
  · rw [hupper]
    exact hvs
  · simpa [Text.asciiLower] using ha
  · refine List.all_eq_true.2 fun c hc => ?_
    obtain ⟨d, hd, rfl⟩ := List.mem_map.1 hc
    exact (hlow d hd).1
  · rw [hupper, hlower]

/-! ### Reading -/

/-- What a text in brackets is read as. -/
theorem ofText?_bracketed (inside : Text) : ofText? ('[' :: inside ++ [']']) = ofLiteral? inside := by
  change (if (inside ++ [']']).getLast? = some ']' then ofLiteral? (inside ++ [']']).dropLast else none) = _
  rw [if_pos (by simp), List.dropLast_concat]

theorem ofText?_of_head?_ne (ht : t.head? ≠ some '[') :
    ofText? t = (Percent.decode .registeredName t).toOption.map ofName := by
  rw [ofText?.eq_def]
  split
  · exact absurd rfl ht
  · rfl

/-- A host is read from a text in brackets, or from the escaped text of a name. -/
theorem ofText?_cases (hr : ofText? t = some h) :
    (∃ inside, t = '[' :: inside ++ [']'] ∧ ofLiteral? inside = some h) ∨
      (t.head? ≠ some '[' ∧ ∃ name, Percent.decode .registeredName t = .ok name ∧ h = ofName name) := by
  by_cases ht : t.head? = some '['
  · obtain ⟨rest, rfl⟩ := List.head?_eq_some_iff.1 ht
    change (if rest.getLast? = some ']' then ofLiteral? rest.dropLast else none) = some h at hr
    split at hr
    · next hl =>
      obtain ⟨inside, rfl⟩ := List.getLast?_eq_some_iff.1 hl
      rw [List.dropLast_concat] at hr
      exact .inl ⟨inside, rfl, hr⟩
    · cases hr
  · rw [ofText?_of_head?_ne ht] at hr
    obtain ⟨name, hn, rfl⟩ := Option.map_eq_some_iff.1 hr
    exact .inr ⟨ht, name, toOption_eq_some_iff.1 hn, rfl⟩

/-- Whether a text between brackets is taken for a future address. -/
def startsFuture (t : Text) : Prop := t.head? = some 'v' ∨ t.head? = some 'V'

theorem startsFuture_iff : startsFuture t ↔ ∃ v, (v = 'v' ∨ v = 'V') ∧ ∃ rest, t = v :: rest := by
  simp only [startsFuture, List.head?_eq_some_iff, or_and_right, exists_or, exists_eq_left]

theorem ofLiteral?_future {v : Char} (hv : v = 'v' ∨ v = 'V') (t : Text) :
    ofLiteral? (v :: t) = (Text.cutFirst '.' t).bind fun (version, address) => (ofFuture version address).toOption := by
  rcases hv with rfl | rfl <;> rfl

theorem ofLiteral?_of_not (ht : ¬ startsFuture t) :
    ofLiteral? t = if t.contains '.' then (Groups.ofDottedText? t).map fun (gs, last) => ipv6Dotted gs last
      else (Groups.ofText? t).map ipv6 := by
  rw [ofLiteral?.eq_def]
  split
  · exact absurd (.inl rfl) ht
  · exact absurd (.inr rfl) ht
  · rfl

theorem ofLiteral?_cases (hr : ofLiteral? t = some h) :
    (∃ v version address, (v = 'v' ∨ v = 'V') ∧ t = v :: version ++ '.' :: address ∧ '.' ∉ version ∧
      ofFuture version address = .ok h) ∨
    (¬ startsFuture t ∧ ∃ g last, Groups.ofDottedText? t = some (g, last) ∧ h = ipv6Dotted g last) ∨
    (¬ startsFuture t ∧ '.' ∉ t ∧ ∃ g, Groups.ofText? t = some g ∧ h = ipv6 g) := by
  by_cases ht : startsFuture t
  · obtain ⟨v, hv, rest, rfl⟩ := startsFuture_iff.1 ht
    rw [ofLiteral?_future hv] at hr
    obtain ⟨⟨version, address⟩, hcut, hf⟩ := Option.bind_eq_some_iff.1 hr
    obtain ⟨rfl, hdot⟩ := Text.cutFirst_eq_some_iff.1 hcut
    exact .inl ⟨v, version, address, hv, rfl, hdot, toOption_eq_some_iff.1 hf⟩
  · rw [ofLiteral?_of_not ht] at hr
    split at hr
    · obtain ⟨⟨g, last⟩, hg, rfl⟩ := Option.map_eq_some_iff.1 hr
      exact .inr (.inl ⟨ht, g, last, hg, rfl⟩)
    · next hdot =>
      obtain ⟨g, hg, rfl⟩ := Option.map_eq_some_iff.1 hr
      exact .inr (.inr ⟨ht, by simpa using hdot, g, hg, rfl⟩)

/-- Whatever text a host is read from, it is settled. -/
theorem settled_of_ofText? (hr : ofText? t = some h) : h.Settled := by
  rcases ofText?_cases hr with ⟨inside, -, hl⟩ | ⟨-, name, -, rfl⟩
  · rcases ofLiteral?_cases hl with ⟨v, version, address, -, -, -, hf⟩ | ⟨-, g, last, -, rfl⟩ | ⟨-, -, g, -, rfl⟩
    · exact settled_of_ofFuture hf
    · trivial
    · trivial
  · exact settled_ofName name

/-! ### Separators -/

/-- A character is a hex digit if its upper case is one of the set. -/
theorem hexDigit_toUpper_iff {c : Char} :
    CharSet.hexDigit.contains c.toUpper = true ↔ (hexValue? c).isSome = true := by
  rcases Nat.lt_or_ge c.toNat 128 with hlt | hge
  · have hascii : ∀ c ∈ CharSet.everything.members,
        CharSet.hexDigit.contains c.toUpper = true ↔ (hexValue? c).isSome = true :=
      forall_mem_of_all (by decide)
    exact hascii c (CharSet.mem_members.2 ⟨hlt, CharSet.contains_everything c⟩)
  · -- beyond ASCII a character is its own upper case
    have hupper : c.toUpper = c := by
      refine dif_neg fun hz => ?_
      have : c.toNat ≤ 122 := hz.2
      omega
    rw [hupper, CharSet.contains_of_ge hge, hexValue?_of_ge hge]
    simp [CharSet.hexDigit]

theorem isHex_of_mem_version (hf : ofFuture version address = .ok h) : ∀ c ∈ version, (hexValue? c).isSome := by
  intro c hc
  have hup := (ofFuture_eq_ok_iff.1 hf).2.1
  have hd : CharSet.hexDigit.contains c.toUpper = true :=
    List.all_eq_true.1 hup _ (List.mem_map.2 ⟨c, hc, rfl⟩)
  exact hexDigit_toUpper_iff.1 hd

/-- What stands between brackets holds no separator of an authority, and none of a reference. -/
theorem not_mem_of_ofLiteral? (hl : ofLiteral? t = some h) {c : Char} (hc : c ∈ [']', '[', '@', '/', '?', '#', '%']) :
    c ∉ t := by
  have hout : ∀ c ∈ [']', '[', '@', '/', '?', '#', '%'], hexValue? c = none ∧ c ≠ ':' ∧ c ≠ '.' ∧ c ≠ 'v' ∧ c ≠ 'V' ∧
      CharSet.userInfo.contains c = false :=
    forall_mem_of_all (by decide)
  obtain ⟨hhex, hcolon, hdot, hv, hV, huser⟩ := hout c hc
  intro hm
  rcases ofLiteral?_cases hl with ⟨v, version, address, hvV, rfl, -, hf⟩ | ⟨-, g, last, hg, -⟩ | ⟨-, -, g, hg, -⟩
  · rw [List.cons_append, List.mem_cons, List.mem_append, List.mem_cons] at hm
    rcases hm with rfl | hm | hm | hm
    · rcases hvV with h | h
      · exact hv h
      · exact hV h
    · simpa [hhex] using isHex_of_mem_version hf c hm
    · exact hdot hm
    · have := List.all_eq_true.1 (ofFuture_eq_ok_iff.1 hf).2.2.2.1 c hm
      simp [huser] at this
  · rcases (Groups.mem_of_ofDottedText? hg).2 c hm with h | h | h
    · exact hcolon h
    · exact hdot h
    · simp [hhex] at h
  · rcases Groups.mem_of_ofText? hg hm with h | h
    · exact hcolon h
    · simp [hhex] at h

/-- A host ends at its only closing bracket, or holds no colon. -/
theorem shape_of_ofText? (hr : ofText? t = some h) :
    (∃ inside, t = '[' :: inside ++ [']'] ∧ ']' ∉ inside) ∨ (t.head? ≠ some '[' ∧ ':' ∉ t) := by
  rcases ofText?_cases hr with ⟨inside, ht, hl⟩ | ⟨ht, name, hn, -⟩
  · exact .inl ⟨inside, ht, not_mem_of_ofLiteral? hl (by simp)⟩
  · exact .inr ⟨ht, Percent.not_mem_of_decode hn (by decide) (by decide) (by decide)⟩

theorem not_mem_of_ofText? (hr : ofText? t = some h) {c : Char} (hc : c ∈ ['@', '/', '?', '#']) : c ∉ t := by
  have hout : ∀ c ∈ ['@', '/', '?', '#'], c ∈ [']', '[', '@', '/', '?', '#', '%'] ∧ c ≠ '[' ∧ c ≠ ']' ∧ c ≠ '%' ∧
      hexValue? c = none ∧ CharSet.registeredName.contains c = false :=
    forall_mem_of_all (by decide)
  obtain ⟨hmem, hopen, hclose, hp, hx, hreg⟩ := hout c hc
  rcases ofText?_cases hr with ⟨inside, rfl, hl⟩ | ⟨ht, name, hn, -⟩
  · have := not_mem_of_ofLiteral? hl hmem
    simp [hopen, hclose, this]
  · exact Percent.not_mem_of_decode hn hp hx hreg

/-! ### Hosts read back -/

theorem plain_of_ipv4 {ip : Ipv4} (hip : Ipv4.ofText? t = some ip) :
    ∀ c ∈ t, c ≠ '%' ∧ CharSet.registeredName.contains c = true := by
  intro c hc
  have hd : c.isDigit → c ≠ '%' ∧ CharSet.registeredName.contains c = true := by
    intro h
    refine ⟨?_, CharSet.contains_mono rfl (by decide) (CharSet.contains_digit h)⟩
    rintro rfl
    exact absurd h (by decide)
  rcases Ipv4.mem_of_ofText? hip hc with rfl | h
  · decide
  · exact hd h

theorem head?_ne_of_not_mem {c : Char} (h : c ∉ t) : t.head? ≠ some c := fun hh =>
  h (List.mem_of_mem_head? hh)

theorem not_startsFuture (hv : ∀ c ∈ t, c ≠ 'v' ∧ c ≠ 'V') : ¬ startsFuture t := by
  rintro (h | h)
  · exact (hv _ (List.mem_of_mem_head? h)).1 rfl
  · exact (hv _ (List.mem_of_mem_head? h)).2 rfl

/-- Addresses of version 6 do not start like a future address. -/
theorem ofLiteral?_groups {g : Groups 8} (hg : Groups.ofText? t = some g) : ofLiteral? t = some (ipv6 g) := by
  have hmem : ∀ c ∈ t, c = ':' ∨ (hexValue? c).isSome := fun c hc => Groups.mem_of_ofText? hg hc
  have hstart : ¬ startsFuture t := by
    refine not_startsFuture ?_
    intro c hc
    rcases hmem c hc with rfl | h
    · decide
    · constructor <;> rintro rfl <;> exact absurd h (by decide)
  have hdot : ¬ t.contains '.' = true := by
    intro hd
    rcases hmem '.' (by simpa using hd) with h | h
    · exact absurd h (by decide)
    · exact absurd h (by decide)
  rw [ofLiteral?_of_not hstart, if_neg hdot, hg]
  rfl

theorem ofLiteral?_dotted {g : Groups 6} {last : Ipv4} (hg : Groups.ofDottedText? t = some (g, last)) :
    ofLiteral? t = some (ipv6Dotted g last) := by
  obtain ⟨hdot, hmem⟩ := Groups.mem_of_ofDottedText? hg
  have hstart : ¬ startsFuture t := by
    refine not_startsFuture ?_
    intro c hc
    rcases hmem c hc with rfl | rfl | h
    · decide
    · decide
    · constructor <;> rintro rfl <;> exact absurd h (by decide)
  rw [ofLiteral?_of_not hstart, if_pos (by simpa using hdot), hg]
  rfl

theorem ofLiteral?_ofFuture {v : Char} (hv : v = 'v' ∨ v = 'V') (hf : ofFuture version address = .ok h) :
    ofLiteral? (v :: version ++ '.' :: address) = some h := by
  have hdot : '.' ∉ version := fun hm => absurd (isHex_of_mem_version hf '.' hm) (by decide)
  rw [List.cons_append, ofLiteral?_future hv, Text.cutFirst_eq_some_iff.2 ⟨rfl, hdot⟩]
  exact toOption_eq_some_iff.2 hf

/-- A settled host is read from its text. -/
theorem ofText?_text (hs : h.Settled) : ofText? h.text = some h := by
  cases h with
  | registeredName name =>
    have hb : '[' ∉ Percent.encode .registeredName name :=
      Percent.not_mem_encode (by decide) (by decide) name
    show ofText? (Percent.encode .registeredName name) = _
    rw [ofText?_of_head?_ne (head?_ne_of_not_mem hb), Percent.decode_encode]
    show some (ofName name) = _
    rw [ofName, hs.1, hs.2]
  | ipv4 ip =>
    have hb : '[' ∉ ip.text := Ipv4.not_mem_text (by decide) (by decide) ip
    show ofText? ip.text = _
    rw [ofText?_of_head?_ne (head?_ne_of_not_mem hb), Percent.decode_of_plain (plain_of_ipv4 (Ipv4.ofText?_text ip))]
    show some (ofName ip.text) = _
    rw [ofName, Ipv4.ofText?_text]
  | ipv6 g => exact (ofText?_bracketed g.text).trans (ofLiteral?_groups (Groups.ofText?_text g))
  | ipv6Dotted g last =>
    exact (ofText?_bracketed (g.dottedText last)).trans (ofLiteral?_dotted (Groups.ofDottedText?_dottedText g last))
  | ipvFuture version address =>
    have hf : ofFuture version address = .ok (ipvFuture version address) := hs
    exact (ofText?_bracketed ('v' :: version ++ '.' :: address)).trans (ofLiteral?_ofFuture (.inl rfl) hf)

theorem readsBack_of_settled (hs : h.Settled) : ReadsBack h := by
  change (ofText? h.text).elim (Except.error _) Except.ok = .ok h
  rw [ofText?_text hs]
  rfl

theorem ofText?_of_read (hr : read t = .ok h) : ofText? t = some h := elim_eq_ok_iff.1 hr

theorem parse_eq_ok_iff_ofText? : parse Host t = .ok h ↔ ofText? t = some h := parse_eq_ok_iff.trans elim_eq_ok_iff

theorem readsBack_of_read (hr : read t = .ok h) : ReadsBack h :=
  readsBack_of_settled (settled_of_ofText? (ofText?_of_read hr))

end Host

/-! ### Authorities -/

namespace Authority

variable {t host : Text} {port : Option Text} {a : Authority}

theorem cutUserInfo_eq_ok_iff {u : Option UserInfo} {rest : Text} :
    cutUserInfo t = .ok (u, rest) ↔
      ∃ front : Option Text, t = (front.elim [] fun f => f ++ ['@']) ++ rest ∧ '@' ∉ rest ∧
        front.mapM UserInfo.read = .ok u := by
  unfold cutUserInfo
  constructor
  · intro h
    split at h
    · next hcut =>
      obtain ⟨rfl, rfl⟩ := Prod.mk.inj (Except.ok.inj h)
      exact ⟨none, rfl, Text.cutLast_eq_none_iff.1 hcut, rfl⟩
    · next front rest' hcut =>
      obtain ⟨ht, hr⟩ := Text.cutLast_eq_some_iff.1 hcut
      obtain ⟨v, hv, hp⟩ := map_eq_ok_iff.1 h
      obtain ⟨rfl, rfl⟩ := Prod.mk.inj hp
      refine ⟨some front, by simp [ht], hr, ?_⟩
      exact option_mapM_eq_ok_iff.2 (.inr ⟨front, v, rfl, hv, rfl⟩)
  · rintro ⟨front, rfl, hr, hu⟩
    rcases option_mapM_eq_ok_iff.1 hu with ⟨rfl, rfl⟩ | ⟨f, v, rfl, hv, rfl⟩
    · rw [Text.cutLast_eq_none_iff.2 (by simpa using hr)]
      rfl
    · have hcut : Text.cutLast '@' (f ++ ['@'] ++ rest) = some (f, rest) :=
        Text.cutLast_eq_some_iff.2 ⟨by simp, hr⟩
      rw [Option.elim_some, hcut]
      exact map_eq_ok_iff.2 ⟨v, hv, rfl⟩

theorem eq_of_cutPort (h : cutPort t = .ok (host, port)) : t = host ++ port.elim [] fun p => ':' :: p := by
  unfold cutPort at h
  split at h
  · split at h
    · cases h
    · next front hcut =>
      obtain ⟨rfl, rfl⟩ := Prod.mk.inj (Except.ok.inj h)
      simpa using (Text.cutFirst_eq_some_iff.1 hcut).1
    · next front p hcut =>
      obtain ⟨rfl, rfl⟩ := Prod.mk.inj (Except.ok.inj h)
      simpa using (Text.cutFirst_eq_some_iff.1 hcut).1
    · cases h
  · have h := Except.ok.inj h
    rw [Text.cutOff] at h
    split at h
    · next l r hcut =>
      obtain ⟨rfl, rfl⟩ := Prod.mk.inj h
      exact (Text.cutFirst_eq_some_iff.1 hcut).1
    · obtain ⟨rfl, rfl⟩ := Prod.mk.inj h
      simp

theorem cutPort_of_head?_ne (ht : t.head? ≠ some '[') : cutPort t = .ok (Text.cutOff ':' t) := by
  unfold cutPort
  split
  · exact absurd rfl ht
  · rfl

/-- The port is cut off right after a host. -/
theorem cutPort_of_shape
    (h : (∃ inside, host = '[' :: inside ++ [']'] ∧ ']' ∉ inside) ∨ (host.head? ≠ some '[' ∧ ':' ∉ host)) :
    cutPort (host ++ port.elim [] fun p => ':' :: p) = .ok (host, port) := by
  rcases h with ⟨inside, rfl, hc⟩ | ⟨hb, hc⟩
  · have hcut : ∀ r, Text.cutFirst ']' ('[' :: inside ++ ']' :: r) = some ('[' :: inside, r) := fun r =>
      Text.cutFirst_eq_some_iff.2 ⟨rfl, by simpa using hc⟩
    cases port with
    | none =>
      have := hcut []
      simp only [Option.elim_none, List.append_nil, List.cons_append] at this ⊢
      simp only [cutPort, this]
      rfl
    | some p =>
      have := hcut (':' :: p)
      simp only [Option.elim_some, List.append_assoc, List.cons_append, List.nil_append] at this ⊢
      simp only [cutPort, this]
      rfl
  · have hhead : (host ++ port.elim [] fun p => ':' :: p).head? ≠ some '[' := by
      cases host with
      | nil => cases port <;> simp
      | cons c cs => exact hb
    rw [cutPort_of_head?_ne hhead, Text.cutOff_append_elim hc]

/-- The last `@` is that of the user information. -/
theorem at_not_mem_of_read {h : Host} {p : Option Port} (hh : Host.read host = .ok h) (hp : port.mapM Port.read = .ok p) :
    '@' ∉ host ++ port.elim [] fun p => ':' :: p := by
  rw [List.mem_append, not_or]
  refine ⟨Host.not_mem_of_ofText? (Host.ofText?_of_read hh) (by simp), ?_⟩
  exact not_mem_elim_of_option_mapM hp (by decide) fun h => Port.not_mem_of_read h (by simp)

/-- An authority is read from the texts of user information, host and port in a row: no separator is ambiguous. -/
theorem read_eq_ok_iff :
    read t = .ok a ↔ ∃ (user : Option Text) (host : Text) (port : Option Text),
      t = (user.elim [] fun u => u ++ ['@']) ++ host ++ (port.elim [] fun p => ':' :: p) ∧
      user.mapM UserInfo.read = .ok a.userInfo ∧ Host.read host = .ok a.host ∧
      port.mapM Port.read = .ok a.port := by
  simp only [read, bind_eq_ok_iff, pure_eq_ok_iff, Prod.exists]
  constructor
  · rintro ⟨u, rest, hu, hostText, portText, hcut, h, hh, p, hp, rfl⟩
    obtain ⟨front, rfl, -, hf⟩ := cutUserInfo_eq_ok_iff.1 hu
    refine ⟨front, hostText, portText, ?_, hf, hh, hp⟩
    rw [eq_of_cutPort hcut, List.append_assoc]
  · rintro ⟨user, host, port, rfl, hu, hh, hp⟩
    have hhost := Host.ofText?_of_read hh
    refine ⟨a.userInfo, _, cutUserInfo_eq_ok_iff.2 ⟨user, ?_, at_not_mem_of_read hh hp, hu⟩, host, port,
      cutPort_of_shape (Host.shape_of_ofText? hhost), a.host, hh, a.port, hp, rfl⟩
    rw [List.append_assoc]

theorem not_mem_of_read (h : read t = .ok a) {c : Char} (hc : c ∈ ['/', '?', '#']) : c ∉ t := by
  obtain ⟨user, host, port, rfl, hu, hh, hp⟩ := read_eq_ok_iff.1 h
  have hc' : c ∈ ['@', '/', '?', '#'] := List.mem_cons_of_mem _ hc
  have hout : ∀ c ∈ ['/', '?', '#'], c ∈ ['@', '/', '?', '#', ']'] ∧ c ≠ '@' ∧ c ≠ ':' :=
    forall_mem_of_all (by decide)
  obtain ⟨hp', hne⟩ := hout c hc
  have hhost : c ∉ host := Host.not_mem_of_ofText? (Host.ofText?_of_read hh) hc'
  have huser : c ∉ user.elim [] fun u => u ++ ['@'] := by
    rcases option_mapM_eq_ok_iff.1 hu with ⟨rfl, -⟩ | ⟨u, b, rfl, hb, -⟩
    · simp
    · simpa [hne.1] using UserInfo.not_mem_of_read hb hc'
  have hport : c ∉ port.elim [] fun p => ':' :: p :=
    not_mem_elim_of_option_mapM hp hne.2 fun h => Port.not_mem_of_read h hp'
  simp [huser, hhost, hport]

/-- What is true of an authority however it came about: its parts are read back. -/
structure WellFormed (a : Authority) : Prop where
  host : a.host.Settled
  port : ∀ p ∈ a.port, ReadsBack p

theorem wellFormed_of_read (h : read t = .ok a) : a.WellFormed := by
  obtain ⟨user, host, port, -, -, hh, hp⟩ := read_eq_ok_iff.1 h
  refine ⟨Host.settled_of_ofText? (Host.ofText?_of_read hh), ?_⟩
  exact forall_mem_of_option_mapM hp fun h => Port.readsBack_of_ofDigits (Port.ofDigits_of_read h)

theorem WellFormed.readsBack (h : a.WellFormed) : ReadsBack a := by
  refine read_eq_ok_iff.2 ⟨a.userInfo.map UserInfo.text, a.host.text, a.port.map Port.digits, ?_,
    option_mapM_map_eq_ok fun u _ => u.readsBack, Host.readsBack_of_settled h.host, option_mapM_map_eq_ok h.port⟩
  show a.text = _
  unfold text
  cases a.userInfo <;> cases a.port <;> rfl

theorem WellFormed.withoutPortIf (h : a.WellFormed) (p : Port) : (a.withoutPortIf p).WellFormed := by
  unfold Authority.withoutPortIf
  split
  · exact ⟨h.host, nofun⟩
  · exact h

end Authority
end GenericUri
