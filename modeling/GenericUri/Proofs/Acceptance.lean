import GenericUri.Proofs.AddressGrammar
import GenericUri.Proofs.PathGrammar

/-!
# Acceptance — the readers accept what the grammar derives

For each component, some value is read from a text exactly if the rule of RFC 3986 derives the text and its escapes are
UTF-8 in every maximal run.  Components made of pieces follow from the characterisations of their readers by the
texts of the pieces, where it no longer matters at which separator a reader cuts first; no run crosses a separator, so
the condition on runs passes to the pieces.

The rules for a relative reference and for what follows a scheme differ in the first segment of a path alone
(`mem_relativePart_iff`): without a colon, the text does not start like a scheme.
-/

namespace GenericUri

open Computability Grammar Percent

/-- Some value is read from the text. -/
def Accepts (α : Type) [Component α] (t : Text) : Prop := ∃ a, (Component.read t : Except Fault α) = .ok a

/-! ### Pieces -/

section Pieces

variable {α β ε : Type} {l : Language Char} {allowed : CharSet} {c : Char} {t r : Text}

theorem exists_map_iff {x : Except ε α} {f : α → β} : (∃ b, x.map f = .ok b) ↔ ∃ a, x = .ok a := by
  simp only [map_eq_ok_iff]
  constructor
  · rintro ⟨b, a, ha, -⟩
    exact ⟨a, ha⟩
  · rintro ⟨a, ha⟩
    exact ⟨f a, a, ha, rfl⟩

/-- An optional piece is read if it is absent or can be read. -/
theorem exists_option_mapM_iff {f : α → Except ε β} {o : Option α} :
    (∃ o', o.mapM f = .ok o') ↔ ∀ a ∈ o, ∃ b, f a = .ok b := by
  simp only [option_mapM_eq_ok_iff]
  constructor
  · rintro ⟨o', ⟨rfl, -⟩ | ⟨a, b, rfl, hb, -⟩⟩
    · exact nofun
    · exact forall_mem_some ⟨b, hb⟩
  · intro h
    cases o with
    | none => exact ⟨none, .inl ⟨rfl, rfl⟩⟩
    | some a =>
      obtain ⟨b, hb⟩ := h a rfl
      exact ⟨some b, .inr ⟨a, b, rfl, hb, rfl⟩⟩

/-- Escaped text over a class is what repeats the class and escapes, with UTF-8 in its runs. -/
theorem exists_decode_iff_mem (hl : IsClass l fun c => allowed.contains c = true) (hp : allowed.contains '%' = false) :
    (∃ s, decode allowed t = .ok s) ↔ t ∈ (l + pctEncoded)∗ ∧ MaximalRunsUtf8 t := by
  rw [exists_decode_iff, mem_escaped_iff hl hp, maximalRunsUtf8_iff]

/-- An optional piece before its separator, and what follows. -/
theorem maximalRunsUtf8_before (hp : c ≠ '%') (hc : hexValue? c = none) (o : Option Text) :
    MaximalRunsUtf8 ((o.elim [] fun u => u ++ [c]) ++ r) ↔ (∀ u ∈ o, MaximalRunsUtf8 u) ∧ MaximalRunsUtf8 r := by
  cases o with
  | none =>
    show MaximalRunsUtf8 r ↔ _
    simp
  | some u =>
    rw [Option.elim_some, List.append_assoc, List.singleton_append, maximalRunsUtf8_append_cons hp hc]
    simp

/-- A text, and an optional piece after its separator. -/
theorem maximalRunsUtf8_after (hp : c ≠ '%') (hc : hexValue? c = none) (o : Option Text) :
    MaximalRunsUtf8 (t ++ o.elim [] fun u => c :: u) ↔ MaximalRunsUtf8 t ∧ ∀ u ∈ o, MaximalRunsUtf8 u := by
  cases o with
  | none =>
    rw [Option.elim_none, List.append_nil]
    simp
  | some u =>
    rw [Option.elim_some, maximalRunsUtf8_append_cons hp hc]
    simp

theorem maximalRunsUtf8_join (hp : c ≠ '%') (hc : hexValue? c = none) (ts : List Text) :
    MaximalRunsUtf8 (Text.join c ts) ↔ ∀ u ∈ ts, MaximalRunsUtf8 u := by
  induction ts with
  | nil => simp
  | cons u ts ih =>
    by_cases hts : ts = []
    · subst hts
      rw [Text.join_singleton]
      simp
    · rw [Text.join_cons_of_ne_nil hts, maximalRunsUtf8_append_cons hp hc, ih, List.forall_mem_cons]

end Pieces

variable {t : Text}

/-! ### User information, ports, queries and fragments -/

theorem accepts_userInfo_iff : Accepts UserInfo t ↔ t ∈ userinfo ∧ MaximalRunsUtf8 t := by
  have hrule : userinfo = (unreserved + subDelims + char ':' + pctEncoded)∗ := by
    unfold userinfo
    congr 1
    ac_rfl
  rw [hrule, ← exists_decode_iff_mem isClass_userInfo (by decide)]
  show (∃ u, UserInfo.read t = .ok u) ↔ _
  simp only [UserInfo.read, mapError_eq_ok_iff, exists_map_iff]

theorem accepts_port_iff : Accepts Port t ↔ t ∈ Grammar.port := by
  have hrule : t ∈ Grammar.port ↔ CharSet.digit.containsAll t = true := by
    unfold Grammar.port
    rw [isClass_digit.mem_kstar]
    exact List.all_eq_true.symm
  rw [hrule]
  show (∃ p, Port.read t = .ok p) ↔ _
  simp only [Port.read, mapError_eq_ok_iff, Port.ofDigits_eq_ok_iff]
  constructor
  · rintro ⟨p, h, -⟩
    exact h
  · intro h
    exact ⟨⟨_⟩, h, rfl⟩

theorem maximalRunsUtf8_of_port (h : t ∈ Grammar.port) : MaximalRunsUtf8 t := by
  refine maximalRunsUtf8_of_not_mem ?_
  intro hm
  exact absurd (isClass_digit.mem_kstar.1 h '%' hm) (by decide)

theorem accepts_tail_iff {kind : TailKind} : Accepts (Tail kind) t ↔ t ∈ query ∧ MaximalRunsUtf8 t := by
  have hrule : query = (unreserved + subDelims + oneOf [':', '@'] + oneOf ['/', '?'] + pctEncoded)∗ := by
    unfold query pchar
    congr 1
    ac_rfl
  rw [hrule, ← exists_decode_iff_mem isClass_queryOrFragment (by decide)]
  show (∃ q, Tail.read t = .ok q) ↔ _
  simp only [Tail.read, mapError_eq_ok_iff, exists_map_iff, canonicalise]

/-! ### Hosts -/

namespace Host

/-- A future address between brackets. -/
theorem exists_future_iff :
    (∃ v version address, (v = 'v' ∨ v = 'V') ∧ t = v :: version ++ '.' :: address ∧
      ∃ h, ofFuture version address = .ok h) ↔ t ∈ Grammar.ipvFuture := by
  unfold Grammar.ipvFuture
  rw [mul_assoc, mul_assoc, Language.mem_mul]
  simp only [mem_mul_char_mul, mem_many1 isClass_hexdig.nil_not_mem, mem_many1 isClass_userInfo.nil_not_mem,
    isClass_hexdig.mem_kstar, isClass_userInfo.mem_kstar]
  constructor
  · rintro ⟨v, version, address, hv, rfl, h, hf⟩
    have hhex := isHex_of_mem_version hf
    obtain ⟨hne, -, hne', haddress, -⟩ := ofFuture_eq_ok_iff.1 hf
    refine ⟨[v], ⟨v, by simpa using hv, rfl⟩, _, ⟨version, ⟨hne, hhex⟩, address, ⟨hne', ?_⟩, rfl⟩, rfl⟩
    exact List.all_eq_true.1 haddress
  · rintro ⟨_, ⟨v, hv, rfl⟩, _, ⟨version, ⟨hne, hhex⟩, address, ⟨hne', haddress⟩, rfl⟩, rfl⟩
    refine ⟨v, version, address, by simpa using hv, rfl, _, ofFuture_eq_ok_iff.2 ⟨hne, ?_, hne', ?_, rfl⟩⟩
    · refine List.all_eq_true.2 ?_
      intro c hc
      obtain ⟨d, hd, rfl⟩ := List.mem_map.1 hc
      exact hexDigit_toUpper_iff.2 (hhex d hd)
    · exact List.all_eq_true.2 haddress

theorem exists_ofLiteral?_iff : (∃ h, ofLiteral? t = some h) ↔ t ∈ ipv6address + Grammar.ipvFuture := by
  rw [Language.mem_add, ← exists_ipv6_iff, ← exists_future_iff]
  constructor
  · rintro ⟨h, hl⟩
    rcases ofLiteral?_cases hl with ⟨v, version, address, hv, rfl, -, hf⟩ | ⟨-, g, last, hg, -⟩ | ⟨-, -, g, hg, -⟩
    · exact .inr ⟨v, version, address, hv, rfl, h, hf⟩
    · exact .inl (.inr ⟨g, last, hg⟩)
    · exact .inl (.inl ⟨g, hg⟩)
  · rintro ((⟨g, hg⟩ | ⟨g, last, hg⟩) | ⟨v, version, address, hv, rfl, h, hf⟩)
    · exact ⟨_, ofLiteral?_groups hg⟩
    · exact ⟨_, ofLiteral?_dotted hg⟩
    · exact ⟨h, ofLiteral?_ofFuture hv hf⟩

end Host

theorem accepts_host_iff : Accepts Host t ↔ t ∈ host ∧ MaximalRunsUtf8 t := by
  have hname : regName = (unreserved + subDelims + pctEncoded)∗ := by
    unfold regName
    congr 1
    ac_rfl
  have hread : Accepts Host t ↔ ∃ h, Host.ofText? t = some h := by
    show (∃ h, (Host.ofText? t).elim (Except.error _) Except.ok = .ok h) ↔ _
    simp only [elim_eq_ok_iff]
  have hliteral : t ∈ ipLiteral ↔ ∃ inside ∈ ipv6address + Grammar.ipvFuture, t = '[' :: inside ++ [']'] := by
    unfold ipLiteral
    rw [mul_assoc, mem_char_mul]
    constructor
    · rintro ⟨_, ⟨inside, hi, _, rfl, rfl⟩, rfl⟩
      exact ⟨inside, hi, rfl⟩
    · rintro ⟨inside, hi, rfl⟩
      exact ⟨_, ⟨inside, hi, _, rfl, rfl⟩, rfl⟩
  rw [hread]
  unfold host
  rw [Language.mem_add, Language.mem_add, hliteral]
  constructor
  · rintro ⟨h, hh⟩
    rcases Host.ofText?_cases hh with ⟨inside, rfl, hl⟩ | ⟨-, name, hn, -⟩
    · refine ⟨.inl (.inl ⟨inside, Host.exists_ofLiteral?_iff.1 ⟨h, hl⟩, rfl⟩), ?_⟩
      have hp : '%' ∉ inside := Host.not_mem_of_ofLiteral? hl (by simp)
      exact maximalRunsUtf8_of_not_mem (by simp [hp])
    · obtain ⟨ht, hruns⟩ := (exists_decode_iff_mem isClass_registeredName (by decide)).1 ⟨name, hn⟩
      rw [← hname] at ht
      exact ⟨.inr ht, hruns⟩
  · rintro ⟨(⟨inside, hi, rfl⟩ | ht) | ht, hruns⟩
    · obtain ⟨h, hl⟩ := Host.exists_ofLiteral?_iff.2 hi
      exact ⟨h, (Host.ofText?_bracketed inside).trans hl⟩
    · -- an address of version 4 is a name as well
      obtain ⟨ip, hip⟩ := exists_ipv4_iff.2 ht
      have hplain := Host.plain_of_ipv4 hip
      have hopen : '[' ∉ t := fun hm => absurd (hplain '[' hm).2 (by decide)
      refine ⟨Host.ofName t, ?_⟩
      rw [Host.ofText?_of_head?_ne (Host.head?_ne_of_not_mem hopen), decode_of_plain hplain]
      rfl
    · rw [hname] at ht
      obtain ⟨name, hn⟩ := (exists_decode_iff_mem isClass_registeredName (by decide)).2 ⟨ht, hruns⟩
      have hopen : '[' ∉ t := not_mem_of_decode hn (by decide) (by decide) (by decide)
      refine ⟨Host.ofName name, ?_⟩
      rw [Host.ofText?_of_head?_ne (Host.head?_ne_of_not_mem hopen), hn]
      rfl

/-! ### Authorities -/

theorem accepts_authority_iff : Accepts Authority t ↔ t ∈ authority ∧ MaximalRunsUtf8 t := by
  have hread : Accepts Authority t ↔ ∃ (user : Option Text) (host : Text) (port : Option Text),
      t = (user.elim [] fun u => u ++ ['@']) ++ host ++ (port.elim [] fun p => ':' :: p) ∧
      (∀ u ∈ user, Accepts UserInfo u) ∧ Accepts Host host ∧ ∀ p ∈ port, Accepts Port p := by
    constructor
    · rintro ⟨a, ha⟩
      obtain ⟨user, host, port, ht, hu, hh, hp⟩ := Authority.read_eq_ok_iff.1 ha
      exact ⟨user, host, port, ht, exists_option_mapM_iff.1 ⟨_, hu⟩, ⟨_, hh⟩, exists_option_mapM_iff.1 ⟨_, hp⟩⟩
    · rintro ⟨user, host, port, ht, hu, ⟨h, hh⟩, hp⟩
      obtain ⟨u, hu⟩ := exists_option_mapM_iff.2 hu
      obtain ⟨p, hp⟩ := exists_option_mapM_iff.2 hp
      exact ⟨⟨u, h, p⟩, Authority.read_eq_ok_iff.2 ⟨user, host, port, ht, hu, hh, hp⟩⟩
  have hrule : t ∈ authority ↔ ∃ (user : Option Text) (h : Text) (port : Option Text),
      t = (user.elim [] fun u => u ++ ['@']) ++ h ++ (port.elim [] fun p => ':' :: p) ∧
      (∀ u ∈ user, u ∈ userinfo) ∧ h ∈ host ∧ ∀ p ∈ port, p ∈ Grammar.port := by
    unfold authority
    simp only [Language.mem_mul, mem_opt_mul_char, mem_opt_char_mul]
    constructor
    · rintro ⟨_, ⟨_, ⟨user, rfl, hu⟩, h, hh, rfl⟩, _, ⟨port, rfl, hp⟩, rfl⟩
      exact ⟨user, h, port, rfl, hu, hh, hp⟩
    · rintro ⟨user, h, port, rfl, hu, hh, hp⟩
      exact ⟨_, ⟨_, ⟨user, rfl, hu⟩, h, hh, rfl⟩, _, ⟨port, rfl, hp⟩, rfl⟩
  rw [hread, hrule]
  simp only [accepts_userInfo_iff, accepts_host_iff, accepts_port_iff]
  constructor
  · rintro ⟨user, h, port, rfl, hu, ⟨hh, hruns⟩, hp⟩
    refine ⟨⟨user, h, port, rfl, fun u hm => (hu u hm).1, hh, hp⟩, ?_⟩
    rw [maximalRunsUtf8_after (by decide) (by decide), maximalRunsUtf8_before (by decide) (by decide)]
    refine ⟨⟨fun u hm => (hu u hm).2, hruns⟩, ?_⟩
    intro p hm
    exact maximalRunsUtf8_of_port (hp p hm)
  · rintro ⟨⟨user, h, port, rfl, hu, hh, hp⟩, hruns⟩
    rw [maximalRunsUtf8_after (by decide) (by decide), maximalRunsUtf8_before (by decide) (by decide)] at hruns
    exact ⟨user, h, port, rfl, fun u hm => ⟨hu u hm, hruns.1.1 u hm⟩, ⟨hh, hruns.1.2⟩, hp⟩

/-! ### Paths -/

theorem accepts_segment_iff : Accepts Segment t ↔ t ∈ Grammar.segment ∧ MaximalRunsUtf8 t := by
  rw [segment_eq, ← exists_decode_iff_mem isClass_pchar (by decide)]
  show (∃ s, Segment.read t = .ok s) ↔ _
  have hstep : (∀ c ∈ t, c ≠ '%' ∧ CharSet.pchar.contains c = true) → ∃ s, decode .pchar t = .ok s :=
    fun h => ⟨t, decode_of_plain h⟩
  by_cases h1 : t = ['.']
  · subst h1
    exact ⟨fun _ => hstep (forall_mem_of_all (by decide)), fun _ => ⟨.dot, rfl⟩⟩
  by_cases h2 : t = ['.', '.']
  · subst h2
    exact ⟨fun _ => hstep (forall_mem_of_all (by decide)), fun _ => ⟨.dotDot, rfl⟩⟩
  rw [Segment.read_of_ne h1 h2]
  simp only [mapError_eq_ok_iff, exists_map_iff, normalise]

theorem exists_readSegments_iff : (∃ ss, readSegments t = .ok ss) ↔ t ∈ segments ∧ MaximalRunsUtf8 t := by
  have hread : (∃ ss, readSegments t = .ok ss) ↔
      ∃ ts, ts ≠ [] ∧ t = Text.join '/' ts ∧ ∀ u ∈ ts, Accepts Segment u := by
    simp only [readSegments_eq_ok_iff]
    constructor
    · rintro ⟨ss, ts, hne, ht, hs⟩
      exact ⟨ts, hne, ht, exists_forall₂_iff.1 ⟨ss, hs⟩⟩
    · rintro ⟨ts, hne, ht, hs⟩
      obtain ⟨ss, hs⟩ := exists_forall₂_iff.2 hs
      exact ⟨ss, ts, hne, ht, hs⟩
  rw [hread]
  unfold segments
  rw [mem_separated]
  simp only [accepts_segment_iff]
  constructor
  · rintro ⟨ts, hne, rfl, hs⟩
    exact ⟨⟨ts, hne, rfl, fun u hu => (hs u hu).1⟩,
      (maximalRunsUtf8_join (by decide) (by decide) ts).2 fun u hu => (hs u hu).2⟩
  · rintro ⟨⟨ts, hne, rfl, hs⟩, hruns⟩
    have hruns := (maximalRunsUtf8_join (by decide) (by decide) ts).1 hruns
    exact ⟨ts, hne, rfl, fun u hu => ⟨hs u hu, hruns u hu⟩⟩

theorem exists_readAfterSlash_iff :
    (∃ p, AbsolutePath.readAfterSlash t = .ok p) ↔ t ∈ segments ∧ MaximalRunsUtf8 t := by
  rw [AbsolutePath.readAfterSlash_eq, exists_map_iff, exists_readSegments_iff]

theorem accepts_path_iff : Accepts Path t ↔ t ∈ segments ∧ MaximalRunsUtf8 t := by
  show (∃ p, Path.read t = .ok p) ↔ _
  by_cases hnil : t = []
  · subst hnil
    exact ⟨fun _ => ⟨nil_mem_segments, maximalRunsUtf8_nil⟩, fun _ => ⟨.empty, rfl⟩⟩
  by_cases hslash : t.head? = some '/'
  · obtain ⟨r, rfl⟩ := List.head?_eq_some_iff.1 hslash
    show (∃ p, (AbsolutePath.readAfterSlash r).map Path.absolute = .ok p) ↔ _
    rw [exists_map_iff, exists_readAfterSlash_iff, slash_cons_mem_segments, maximalRunsUtf8_cons (by decide)]
  · rw [Path.read_of_ne hnil hslash, exists_map_iff, exists_readSegments_iff]

/-! ### Hierarchical parts and what follows them -/

theorem exists_readHierPart_iff : (∃ h, HierPart.read t = .ok h) ↔ t ∈ hierPart ∧ MaximalRunsUtf8 t := by
  have hread : (∃ h, HierPart.read t = .ok h) ↔
      (∃ (a : Text) (path : Option Text), t = '/' :: '/' :: a ++ (path.elim [] fun p => '/' :: p) ∧
        Accepts Authority a ∧ ∀ p ∈ path, ∃ q, AbsolutePath.readAfterSlash p = .ok q) ∨
      (¬ ['/', '/'] <+: t ∧ Accepts Path t) := by
    simp only [HierPart.read_eq_ok_iff]
    constructor
    · rintro ⟨h, ⟨authority, path, a, p, ht, ha, hp, -⟩ | ⟨ht, p, hp, -⟩⟩
      · exact .inl ⟨authority, path, ht, ⟨a, ha⟩, exists_option_mapM_iff.1 ⟨p, hp⟩⟩
      · exact .inr ⟨ht, p, hp⟩
    · rintro (⟨authority, path, ht, ⟨a, ha⟩, hp⟩ | ⟨ht, p, hp⟩)
      · obtain ⟨p, hp⟩ := exists_option_mapM_iff.2 hp
        exact ⟨_, .inl ⟨authority, path, a, p, ht, ha, hp, rfl⟩⟩
      · exact ⟨_, .inr ⟨ht, p, hp, rfl⟩⟩
  have hruns (a : Text) (path : Option Text) :
      MaximalRunsUtf8 ('/' :: '/' :: a ++ (path.elim [] fun p => '/' :: p)) ↔
        MaximalRunsUtf8 a ∧ ∀ p ∈ path, MaximalRunsUtf8 p := by
    rw [maximalRunsUtf8_after (by decide) (by decide), maximalRunsUtf8_cons (by decide),
      maximalRunsUtf8_cons (by decide)]
  rw [hread, mem_hierPart]
  simp only [accepts_authority_iff, accepts_path_iff, exists_readAfterSlash_iff]
  constructor
  · rintro (⟨a, path, rfl, ⟨ha, har⟩, hp⟩ | ⟨ht, hp, hpr⟩)
    · exact ⟨.inl ⟨a, ha, path, rfl, fun p hm => (hp p hm).1⟩, (hruns a path).2 ⟨har, fun p hm => (hp p hm).2⟩⟩
    · exact ⟨.inr ⟨ht, hp⟩, hpr⟩
  · rintro ⟨⟨a, ha, path, rfl, hp⟩ | ⟨ht, hp⟩, hr⟩
    · obtain ⟨har, hpr⟩ := (hruns a path).1 hr
      exact .inl ⟨a, path, rfl, ⟨ha, har⟩, fun p hm => ⟨hp p hm, hpr p hm⟩⟩
    · exact .inr ⟨ht, hp, hr⟩

theorem exists_readParts_iff :
    (∃ p, Parts.read t = .ok p) ↔
      t ∈ hierPart * opt (char '?' * query) * opt (char '#' * fragment) ∧ MaximalRunsUtf8 t := by
  have hread : (∃ p, Parts.read t = .ok p) ↔ ∃ (hier : Text) (q f : Option Text),
      t = hier ++ (q.elim [] fun q => '?' :: q) ++ (f.elim [] fun f => '#' :: f) ∧
        (∃ h, HierPart.read hier = .ok h) ∧ (∀ u ∈ q, Accepts Query u) ∧ ∀ u ∈ f, Accepts Fragment u := by
    simp only [Parts.read_eq_ok_iff]
    constructor
    · rintro ⟨p, hier, q, f, ht, hh, hq, hf⟩
      exact ⟨hier, q, f, ht, ⟨_, hh⟩, exists_option_mapM_iff.1 ⟨_, hq⟩, exists_option_mapM_iff.1 ⟨_, hf⟩⟩
    · rintro ⟨hier, q, f, ht, ⟨h, hh⟩, hq, hf⟩
      obtain ⟨q', hq⟩ := exists_option_mapM_iff.2 hq
      obtain ⟨f', hf⟩ := exists_option_mapM_iff.2 hf
      exact ⟨⟨h, q', f'⟩, hier, q, f, ht, hh, hq, hf⟩
  rw [hread, mem_mul_tails]
  simp only [exists_readHierPart_iff, accepts_tail_iff]
  constructor
  · rintro ⟨hier, q, f, rfl, ⟨hh, hr⟩, hq, hf⟩
    refine ⟨⟨hier, q, f, rfl, hh, fun u hu => (hq u hu).1, fun u hu => (hf u hu).1⟩, ?_⟩
    rw [maximalRunsUtf8_after (by decide) (by decide), maximalRunsUtf8_after (by decide) (by decide)]
    exact ⟨⟨hr, fun u hu => (hq u hu).2⟩, fun u hu => (hf u hu).2⟩
  · rintro ⟨⟨hier, q, f, rfl, hh, hq, hf⟩, hr⟩
    rw [maximalRunsUtf8_after (by decide) (by decide), maximalRunsUtf8_after (by decide) (by decide)] at hr
    exact ⟨hier, q, f, rfl, ⟨hh, hr.1.1⟩, fun u hu => ⟨hq u hu, hr.1.2 u hu⟩, fun u hu => ⟨hf u hu, hr.2 u hu⟩⟩

/-! ### References -/

theorem exists_schemeName_iff : (∃ n, SchemeName.ofText t = .ok n) ↔ t ∈ scheme := by
  unfold scheme
  rw [Language.mem_mul]
  simp only [SchemeName.ofText_eq_ok_iff, isClass_alpha.mem_iff, isClass_schemeTrailing.mem_kstar]
  constructor
  · rintro ⟨n, c, rest, rfl, hc, hr, -⟩
    exact ⟨[c], ⟨c, rfl, hc⟩, rest, List.all_eq_true.1 hr, rfl⟩
  · rintro ⟨_, ⟨c, rfl, hc⟩, rest, hr, rfl⟩
    exact ⟨⟨_⟩, c, rest, rfl, hc, List.all_eq_true.2 hr, rfl⟩

theorem accepts_uri_iff : Accepts Uri t ↔ t ∈ uri ∧ MaximalRunsUtf8 t := by
  have hread : Accepts Uri t ↔ ∃ name rest, t = name ++ ':' :: rest ∧ (∃ n, SchemeName.ofText name = .ok n) ∧
      ∃ p, Parts.read rest = .ok p := by
    constructor
    · rintro ⟨u, hu⟩
      obtain ⟨name, rest, ht, hn, hp⟩ := Uri.read_eq_ok_iff.1 hu
      exact ⟨name, rest, ht, ⟨_, hn⟩, _, hp⟩
    · rintro ⟨name, rest, ht, ⟨n, hn⟩, p, hp⟩
      exact ⟨⟨n, p⟩, Uri.read_eq_ok_iff.2 ⟨name, rest, ht, hn, hp⟩⟩
  have hruns {name : Text} (h : name ∈ scheme) (rest : Text) :
      MaximalRunsUtf8 (name ++ ':' :: rest) ↔ MaximalRunsUtf8 rest := by
    obtain ⟨n, hn⟩ := exists_schemeName_iff.2 h
    have hp : '%' ∉ name := by
      intro hm
      exact absurd (List.all_eq_true.1 (SchemeName.containsAll_of_ofText hn) '%' hm) (by decide)
    rw [maximalRunsUtf8_append_cons (by decide) (by decide)]
    exact ⟨fun h => h.2, fun h => ⟨maximalRunsUtf8_of_not_mem hp, h⟩⟩
  rw [hread, mem_uri]
  simp only [exists_schemeName_iff, exists_readParts_iff]
  constructor
  · rintro ⟨name, rest, rfl, hn, hp, hr⟩
    exact ⟨⟨name, hn, rest, hp, rfl⟩, (hruns hn rest).2 hr⟩
  · rintro ⟨⟨name, hn, rest, hp, rfl⟩, hr⟩
    exact ⟨name, rest, rfl, hn, hp, (hruns hn rest).1 hr⟩

theorem accepts_relativeRef_iff : Accepts RelativeRef t ↔ t ∈ relativeRef ∧ MaximalRunsUtf8 t := by
  have hread : Accepts RelativeRef t ↔ (∃ p, Parts.read t = .ok p) ∧ RelativeRef.startsLikeScheme t = false := by
    constructor
    · rintro ⟨r, hr⟩
      obtain ⟨hp, hstart⟩ := RelativeRef.read_eq_ok_iff.1 hr
      exact ⟨⟨_, hp⟩, hstart⟩
    · rintro ⟨⟨p, hp⟩, hstart⟩
      exact ⟨⟨p⟩, RelativeRef.read_eq_ok_iff.2 ⟨hp, hstart⟩⟩
  rw [hread, exists_readParts_iff, mem_relativeRef, and_right_comm]

/-- The readers of references accept exactly the texts that RFC 3986 derives and whose escapes are UTF-8. -/
theorem parse_accepts_iff (t : Text) :
    ((∃ u, parse Uri t = .ok u) ↔ t ∈ uri ∧ MaximalRunsUtf8 t) ∧
      ((∃ r, parse RelativeRef t = .ok r) ↔ t ∈ relativeRef ∧ MaximalRunsUtf8 t) := by
  simp only [parse_eq_ok_iff]
  exact ⟨accepts_uri_iff, accepts_relativeRef_iff⟩

end GenericUri
