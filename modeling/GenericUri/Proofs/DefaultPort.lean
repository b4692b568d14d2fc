import GenericUri.Proofs.Reachable

/-!
# DefaultPort — when the default port goes

A scheme drops its default port from the authorities of what is built or read through it.  It does not matter when: a
port that is dropped once is not there to be dropped again (`Scheme.normalise_normalise`), a text gives back the parts
that it was written from (`Scheme.parseUri_text`), and an authority goes through resolution as it is, from the base or
from the reference, so that changing authorities and resolving can change places (`Parts.mapAuthority_resolve`).

So a scheme makes the same of parts as of their text (`Scheme.parse_text_ofParts`), and the same of a reference before
it is resolved as of the text of what it means (`Scheme.parseUri_text_resolve`).
-/

namespace GenericUri

/-! ### Changing authorities -/

section MapAuthority

variable (f g : Authority → Authority)

theorem HierPart.mapAuthority_eq_bare_iff {h : HierPart} {p : Path} : h.mapAuthority f = .bare p ↔ h = .bare p := by
  cases h with
  | bare q => exact Iff.rfl
  | under a q => exact ⟨nofun, nofun⟩

/-- The authority of what a reference means is that of the reference or that of the base. -/
theorem HierPart.mapAuthority_resolve (base h : HierPart) :
    (base.resolve h).mapAuthority f = (base.mapAuthority f).resolve (h.mapAuthority f) := by
  cases h with
  | under a p => rfl
  | bare p =>
    cases base with
    | under b q => cases p <;> rfl
    | bare q => cases p <;> cases q <;> rfl

namespace Parts

theorem mapAuthority_id (p : Parts) : p.mapAuthority id = p := by
  obtain ⟨hier, query, fragment⟩ := p
  cases hier <;> rfl

theorem mapAuthority_mapAuthority (p : Parts) : (p.mapAuthority f).mapAuthority g = p.mapAuthority (g ∘ f) := by
  obtain ⟨hier, query, fragment⟩ := p
  cases hier <;> rfl

theorem mapAuthority_resolve (base p : Parts) :
    (base.resolve p).mapAuthority f = (base.mapAuthority f).resolve (p.mapAuthority f) := by
  -- whether the query of the base is taken over does not depend on authorities
  have hquery : (p.mapAuthority f).hier = .bare .empty ↔ p.hier = .bare .empty := HierPart.mapAuthority_eq_bare_iff f
  unfold Parts.resolve
  simp only [hquery]
  show Parts.mk ((base.hier.resolve p.hier).mapAuthority f) _ _ = _
  rw [HierPart.mapAuthority_resolve]
  rfl

end Parts

end MapAuthority

/-! ### Dropping a port -/

namespace Authority

variable {a : Authority} {port : Port}

theorem withoutPortIf_of_ne (h : a.port ≠ some port) : a.withoutPortIf port = a := if_neg h

theorem port_withoutPortIf_ne (a : Authority) (port : Port) : (a.withoutPortIf port).port ≠ some port := by
  unfold withoutPortIf
  split
  · exact nofun
  · assumption

end Authority

namespace Scheme

theorem normalise_normalise (s : Scheme) (a : Authority) : s.normalise (s.normalise a) = s.normalise a := by
  unfold normalise
  cases s.defaultPort with
  | none => rfl
  | some port => exact Authority.withoutPortIf_of_ne (a.port_withoutPortIf_ne port)

theorem normaliseParts_normaliseParts (s : Scheme) (p : Parts) :
    s.normaliseParts (s.normaliseParts p) = s.normaliseParts p := by
  have htwice : s.normalise ∘ s.normalise = s.normalise := funext s.normalise_normalise
  unfold normaliseParts
  rw [Parts.mapAuthority_mapAuthority, htwice]

/-- Without a default port nothing is dropped. -/
theorem normaliseParts_of_none {s : Scheme} (h : s.defaultPort = none) (p : Parts) : s.normaliseParts p = p := by
  have hid : s.normalise = id := by
    funext a
    unfold normalise
    rw [h]
    rfl
  unfold normaliseParts
  rw [hid, Parts.mapAuthority_id]

end Scheme

/-! ### What a scheme makes of a URI -/

namespace Scheme

variable {s : Scheme} {u base : Uri}

theorem adopt_of_eq (h : u.scheme = s.name) : s.adopt u = .ofParts s u.parts := if_pos h

theorem adopt_of_ne (h : u.scheme ≠ s.name) : s.adopt u = u := if_neg h

theorem adopt_ofParts (s : Scheme) (p : Parts) : s.adopt (.ofParts s p) = .ofParts s p := by
  rw [adopt_of_eq rfl]
  show Uri.mk s.name (s.normaliseParts (s.normaliseParts p)) = _
  rw [normaliseParts_normaliseParts]
  rfl

theorem adopt_adopt (s : Scheme) (u : Uri) : s.adopt (s.adopt u) = s.adopt u := by
  by_cases h : u.scheme = s.name
  · rw [adopt_of_eq h, adopt_ofParts]
  · rw [adopt_of_ne h, adopt_of_ne h]

/-- A base of the scheme's name and a reference may be adopted first and resolved afterwards. -/
theorem adopt_resolve (h : base.scheme = s.name) (x : Reference) :
    s.adopt (base.resolve x) = (s.adopt base).resolve (s.adoptReference x) := by
  cases x with
  | uri u => rfl
  | relative r =>
    have hresolve : (base.resolve (.relative r)).scheme = s.name := h
    rw [adopt_of_eq h, adopt_of_eq hresolve]
    show Uri.mk s.name ((base.parts.resolve r.parts).mapAuthority s.normalise) = _
    rw [Parts.mapAuthority_resolve]
    rfl

theorem parseUri_text (s : Scheme) (h : u.WellFormed) : s.parseUri u.text = .ok (s.adopt u) :=
  h.readsBack.map_parse s.adopt

theorem parseRelativeRef_text (s : Scheme) {r : RelativeRef} (h : r.WellFormed) :
    s.parseRelativeRef r.text = .ok (.ofParts s r.parts) :=
  h.readsBack.map_parse fun r => RelativeRef.ofParts s r.parts

end Scheme

/-! ### Parts and their text -/

namespace Scheme

/-- What a scheme builds of parts it also parses from their text, whether the default port is still in it or not.  To a
scheme of another name the port is one like any other. -/
theorem parse_text_ofParts {s : Scheme} {p : Parts} (hs : Reachable (.scheme s)) (hp : p.Made) :
    let plain : Scheme := ⟨s.name, none⟩
    (s.parseUri (Uri.ofParts plain p).text = .ok (.ofParts s p) ∧
        s.parseUri (Uri.ofParts s p).text = .ok (.ofParts s p)) ∧
      s.parseRelativeRef (RelativeRef.mk p).text = .ok (.ofParts s p) ∧
        ∀ other : Scheme, other.name ≠ s.name →
          other.parseUri (Uri.ofParts plain p).text = .ok (.ofParts plain p) ∧ (Uri.ofParts plain p).parts = p := by
  intro plain
  have hw : s.WellFormed := hs.wellFormed
  have hplain : plain.WellFormed := ⟨hw.name, nofun⟩
  have hparts : (Uri.ofParts plain p).parts = p := normaliseParts_of_none rfl p
  refine ⟨⟨?_, ?_⟩, parseRelativeRef_text s hp.wellFormed, ?_⟩
  · rw [parseUri_text s (hplain.ofParts hp.wellFormed), adopt_of_eq rfl, hparts]
  · rw [parseUri_text s (hw.ofParts hp.wellFormed), adopt_ofParts]
  · intro other hne
    refine ⟨?_, hparts⟩
    rw [parseUri_text other (hplain.ofParts hp.wellFormed), adopt_of_ne hne.symm]

/-- A default port that no 16 bits hold, after user information and an address in brackets. -/
theorem parse_text_ofParts_long_port :
    let s : Scheme := ⟨⟨['x']⟩, some ⟨"70000".toList⟩⟩
    let p : Parts := ⟨.under ⟨some ⟨['u', '@']⟩, .loopbackV6, some ⟨"70000".toList⟩⟩ none, some (.ofValue ['q']), none⟩
    let plain : Scheme := ⟨s.name, none⟩
    (Reachable (.scheme s) ∧ p.Made ∧ http.name ≠ s.name) ∧
      ((Uri.ofParts plain p).text = "x://u%40@[::1]:70000?q".toList ∧
          (Uri.ofParts s p).text = "x://u%40@[::1]?q".toList) ∧
        (s.parseUri (Uri.ofParts plain p).text = .ok (.ofParts s p) ∧
            s.parseUri (Uri.ofParts s p).text = .ok (.ofParts s p)) ∧
          s.parseRelativeRef (RelativeRef.mk p).text = .ok (.ofParts s p) ∧
            http.parseUri (Uri.ofParts plain p).text = .ok (.ofParts plain p) := by
  intro s p plain
  have hport : Reachable (.port ⟨"70000".toList⟩) := .portDigits (t := "070000".toList) (by decide)
  have hs : Reachable (.scheme s) := .schemeName (t := ['X']) (forall_mem_some hport) (by decide)
  have hp : p.Made := ⟨.under (.authority .ipv6 (forall_mem_some hport)) nofun, forall_mem_some .tailValue, nofun⟩
  have hne : http.name ≠ s.name := by decide
  obtain ⟨huri, hrelative, hother⟩ := parse_text_ofParts hs hp
  exact ⟨⟨hs, hp, hne⟩, ⟨by decide, by decide⟩, huri, hrelative, (hother http hne).1⟩

end Scheme

/-! ### References before and after they are resolved -/

/-- The URIs of a scheme's own name that it builds or parses. -/
inductive Scheme.Own (s : Scheme) : Uri → Prop
  | built {p : Parts} (hp : p.Made) : s.Own (.ofParts s p)
  | parsed {t : Text} {u : Uri} (hu : s.parseUri t = .ok u) (hname : u.scheme = s.name) : s.Own u

namespace Scheme

variable {s : Scheme} {base : Uri}

theorem Own.scheme_eq (h : s.Own base) : base.scheme = s.name := by
  cases h with
  | built => rfl
  | parsed _ hname => exact hname

theorem Own.adopt_eq (h : s.Own base) : s.adopt base = base := by
  cases h with
  | built => exact adopt_ofParts s _
  | parsed hu =>
    obtain ⟨u, -, rfl⟩ := map_eq_ok_iff.1 hu
    exact adopt_adopt s u

theorem Own.wellFormed (hs : s.WellFormed) (h : s.Own base) : base.WellFormed := by
  cases h with
  | built hp => exact hs.ofParts hp.wellFormed
  | parsed hu =>
    obtain ⟨u, hread, rfl⟩ := map_eq_ok_iff.1 hu
    exact (Uri.wellFormed_of_read (parse_eq_ok_iff.1 hread)).adopt s

/-- A scheme may drop its default port from a reference before that is resolved, or from the text of the URI that the
reference means.  It comes to the same, whatever the scheme of the reference. -/
theorem parseUri_text_resolve {t : Text} {x : Reference} (hs : Reachable (.scheme s)) (hb : s.Own base)
    (hx : parse Reference t = .ok x) :
    ∃ y, s.parseReference t = .ok y ∧ s.parseUri (base.resolve x).text = .ok (base.resolve y) := by
  have hbw : base.WellFormed := hb.wellFormed hs.wellFormed
  have hxw : x.WellFormed := Reference.wellFormed_of_read (parse_eq_ok_iff.1 hx)
  refine ⟨s.adoptReference x, map_eq_ok_iff.2 ⟨x, hx, rfl⟩, ?_⟩
  rw [parseUri_text s (hbw.resolve hxw), adopt_resolve hb.scheme_eq, hb.adopt_eq]

/-- Against a base with a path and a query, from which the default port is gone: references with an authority of their own,
where the default port is spelled otherwise, with a path, with a query only, and with nothing, and a URI of another
scheme. -/
theorem parseUri_text_resolve_authority :
    let base := Uri.ofParts .http ⟨.under ⟨none, .localhost, some (.ofNumber 80)⟩
      (some (.ofSegments [.ofValue ['b'], .ofValue ['c']])), some (.ofValue ['q']), none⟩
    let written : Parts := ⟨.under ⟨none, .ipv4 ⟨1, 2, 3, 4⟩, some (.ofNumber 80)⟩ none, none, none⟩
    let dropped : Parts := ⟨.under ⟨none, .ipv4 ⟨1, 2, 3, 4⟩, none⟩ none, none, none⟩
    let x : Reference := .relative ⟨written⟩
    let y : Reference := .relative ⟨dropped⟩
    let z : Reference := .uri ⟨⟨['w', 's']⟩, written⟩
    let path : Reference := .relative ⟨⟨.bare (.ofRootless [.dotDot, .ofValue ['g']]), none, none⟩⟩
    let query : Reference := .relative ⟨⟨.bare .empty, some (.ofValue ['y']), none⟩⟩
    let none : Reference := .relative ⟨⟨.bare .empty, none, none⟩⟩
    (Reachable (.scheme .http) ∧ http.Own base ∧ parse Reference "//1.2.3.4:080".toList = .ok x ∧
        parse Reference "WS://1.2.3.4:80".toList = .ok z ∧ parse Reference "../g".toList = .ok path ∧
          parse Reference "?y".toList = .ok query ∧ parse Reference [] = .ok none) ∧
      (base.text = "http://localhost/b/c?q".toList ∧ (base.resolve x).text = "http://1.2.3.4:80".toList ∧
          (base.resolve path).text = "http://localhost/g".toList ∧
            (base.resolve query).text = "http://localhost/b/c?y".toList ∧ (base.resolve none).text = base.text) ∧
        (http.parseReference "//1.2.3.4:080".toList = .ok y ∧
          http.parseUri (base.resolve x).text = .ok (base.resolve y)) ∧
          (http.parseReference "WS://1.2.3.4:80".toList = .ok z ∧
            http.parseUri (base.resolve z).text = .ok (base.resolve z)) ∧
            http.parseUri (base.resolve path).text = .ok (base.resolve path) ∧
              http.parseUri (base.resolve query).text = .ok (base.resolve query) ∧
                http.parseUri (base.resolve none).text = .ok (base.resolve none) := by
  intro base written dropped x y z path query none
  have hb : http.Own base := by
    refine .built ⟨.under (.authority .localhost (forall_mem_some .portNumber)) (forall_mem_some (.absolutePath ?_)),
      forall_mem_some .tailValue, nofun⟩
    exact List.forall_mem_cons.2 ⟨.segmentValue, List.forall_mem_singleton.2 .segmentValue⟩
  have hx : parse Reference "//1.2.3.4:080".toList = .ok x := by decide
  have hz : parse Reference "WS://1.2.3.4:80".toList = .ok z := by decide
  have hpath : parse Reference "../g".toList = .ok path := by decide
  have hquery : parse Reference "?y".toList = .ok query := by decide
  have hnone : parse Reference [] = .ok none := by decide
  have hy : http.parseReference "//1.2.3.4:080".toList = .ok y := by decide
  have hkept : http.parseReference "WS://1.2.3.4:80".toList = .ok z := by decide
  have hresolved : ∀ {t r r'}, parse Reference t = .ok r → http.parseReference t = .ok r' →
      http.parseUri (base.resolve r).text = .ok (base.resolve r') := by
    intro t r r' hr hr'
    obtain ⟨r'', hr'', hresolved⟩ := parseUri_text_resolve .http hb hr
    obtain rfl : r'' = r' := Except.ok.inj (hr''.symm.trans hr')
    exact hresolved
  exact ⟨⟨.http, hb, hx, hz, hpath, hquery, hnone⟩, ⟨by decide, by decide, by decide, by decide, by decide⟩,
    ⟨hy, hresolved hx hy⟩, ⟨hkept, hresolved hz hkept⟩, hresolved hpath (by decide), hresolved hquery (by decide),
    hresolved hnone (by decide)⟩

end Scheme
end GenericUri
