import GenericUri.Proofs.FirstFault
import GenericUri.Proofs.LetterCase

/-!
# CaseFolding — hosts and schemes ignore the case of letters

Texts that are the same in lower case are read as the same host and as the same scheme, or as none.

In a URI the host can be told apart without reading it (`hostPiece`).  What is read of the pieces around it does not
depend on its text, from the authority up to all that follows the scheme (`Parts.exists_hostPiece`).  So the letters of
scheme and host may change their case, and the URI stays the same (`parse_eq_of_asciiLower_eq`).
-/

namespace GenericUri

/-! ### Hosts and schemes -/

/-- What does not change when texts are lower-cased is the same for texts that are the same in lower case. -/
theorem eq_of_asciiLower_eq {α : Type} {f : Text → α} (hf : ∀ t, f (Text.asciiLower t) = f t) {s t : Text}
    (h : Text.asciiLower s = Text.asciiLower t) : f s = f t := by
  rw [← hf s, h, hf t]

theorem Host.toOption_parse (t : Text) : (parse Host t).toOption = ofText? t :=
  Option.ext fun _ => toOption_eq_some_iff.trans parse_eq_ok_iff_ofText?

theorem Scheme.toOption_parse (t : Text) :
    (parse Scheme t).toOption = (SchemeName.ofText t).toOption.map fun name => ⟨name, none⟩ := by
  ext s
  have hread : parse Scheme t = .ok s ↔ ofName t none = .ok s := parse_eq_ok_iff.trans mapError_eq_ok_iff
  simp only [toOption_eq_some_iff, hread, ofName, map_eq_ok_iff, Option.map_eq_some_iff]

theorem Host.read_of_asciiLower_eq {s t : Text} {h : Host} (he : Text.asciiLower s = Text.asciiLower t)
    (hr : Host.read t = .ok h) : Host.read s = .ok h := by
  refine elim_eq_ok_iff.2 ?_
  rw [eq_of_asciiLower_eq ofText?_asciiLower he]
  exact ofText?_of_read hr

theorem SchemeName.ofText_of_asciiLower_eq {s t : Text} {n : SchemeName} (he : Text.asciiLower s = Text.asciiLower t)
    (hn : ofText t = .ok n) : ofText s = .ok n := by
  have hsame := eq_of_asciiLower_eq (f := fun t => (ofText t).toOption) ofText_asciiLower he
  exact toOption_eq_some_iff.1 (hsame.trans (toOption_eq_some_iff.2 hn))

/-! ### The host in a text -/

/-- User information with its `@`, and the text after it. -/
def userInfoPiece (authority : Text) : Text × Text :=
  match Text.cutLast '@' authority with
  | some (userInfo, rest) => (userInfo ++ ['@'], rest)
  | none => ([], authority)

/-- What stands before the host in a text without a scheme, the host, and what stands after it.  Where there is no
authority, or its host cannot be told apart, all of the text stands after. -/
def hostPiece (t : Text) : Text × Text × Text :=
  match authorityPiece t with
  | (some authority, rest) =>
    let (userInfo, hostText) := userInfoPiece authority
    match hostAndPort? hostText with
    | some (host, port) => ('/' :: '/' :: userInfo, host, (port.elim [] fun p => ':' :: p) ++ rest)
    | none => ([], [], t)
  | (none, _) => ([], [], t)

theorem hostPiece_of_no_authority {t : Text} (h : (authorityPiece t).1 = none) : hostPiece t = ([], [], t) := by
  unfold hostPiece
  split
  · next hp =>
    rw [hp] at h
    cases h
  · rfl

theorem authorityPiece_of_append {authority rest : Text} (ha : ∀ c ∈ authority, c ∉ ['/', '?', '#'])
    (hr : ∀ c ∈ rest.head?, c ∈ ['/', '?', '#']) :
    authorityPiece ('/' :: '/' :: (authority ++ rest)) = (some authority, rest) := by
  show (let (authority, rest) := Text.cutBefore ['/', '?', '#'] (authority ++ rest); (some authority, rest)) = _
  rw [Text.cutBefore_append ha hr]

theorem userInfoPiece_append {userInfo : Option Text} {rest : Text} (hr : '@' ∉ rest) :
    userInfoPiece ((userInfo.elim [] fun u => u ++ ['@']) ++ rest) = (userInfo.elim [] fun u => u ++ ['@'], rest) := by
  unfold userInfoPiece
  cases userInfo with
  | none => rw [Option.elim_none, List.nil_append, Text.cutLast_eq_none_iff.2 hr]
  | some u =>
    have hcut : Text.cutLast '@' (u ++ ['@'] ++ rest) = some (u, rest) := Text.cutLast_eq_some_iff.2 ⟨by simp, hr⟩
    rw [Option.elim_some, hcut]

/-- A text that is read as a host is told apart from the port after it. -/
theorem hostAndPort?_of_ofText? {host : Text} {port : Option Text} {h : Host} (hh : Host.ofText? host = some h) :
    hostAndPort? (host ++ port.elim [] fun p => ':' :: p) = some (host, port) := by
  have hcut : Authority.cutPort (host ++ port.elim [] fun p => ':' :: p) = .ok (host, port) :=
    Authority.cutPort_of_shape (Host.shape_of_ofText? hh)
  rw [Authority.cutPort_eq] at hcut
  exact elim_eq_ok_iff.1 hcut

/-- In an authority the text of the host may be another one of the same host. -/
theorem Authority.exists_hostPiece {t rest : Text} {a : Authority} (ha : read t = .ok a)
    (hrest : ∀ c ∈ rest.head?, c ∈ ['/', '?', '#']) :
    ∃ front host back, t = front ++ host ++ back ∧
      hostPiece ('/' :: '/' :: (t ++ rest)) = ('/' :: '/' :: front, host, back ++ rest) ∧ Host.read host = .ok a.host ∧
        ∀ host', Text.asciiLower host' = Text.asciiLower host → read (front ++ host' ++ back) = .ok a := by
  have hsep : ∀ c ∈ t, c ∉ ['/', '?', '#'] := fun c hc hsep => not_mem_of_read ha hsep hc
  obtain ⟨user, host, port, rfl, hu, hh, hp⟩ := read_eq_ok_iff.1 ha
  refine ⟨user.elim [] fun u => u ++ ['@'], host, port.elim [] fun p => ':' :: p, rfl, ?_, hh, ?_⟩
  · unfold hostPiece
    rw [authorityPiece_of_append hsep hrest, List.append_assoc]
    simp only [userInfoPiece_append (at_not_mem_of_read hh hp), hostAndPort?_of_ofText? (Host.ofText?_of_read hh)]
  · intro host' he
    exact read_eq_ok_iff.2 ⟨user, host', port, rfl, hu, Host.read_of_asciiLower_eq he hh, hp⟩

theorem HierPart.exists_hostPiece {t rest : Text} {h : HierPart} (hh : read t = .ok h)
    (hrest : ∀ c ∈ rest.head?, c ∈ ['?', '#']) :
    ∃ front host back, t = front ++ host ++ back ∧ hostPiece (t ++ rest) = (front, host, back ++ rest) ∧
      (∀ a, h.authority? = some a → Host.read host = .ok a.host) ∧
        ∀ host', Text.asciiLower host' = Text.asciiLower host → read (front ++ host' ++ back) = .ok h := by
  rcases read_eq_ok_iff.1 hh with ⟨authority, path, a, p, rfl, ha, hp, rfl⟩ | ⟨hslash, p, -, rfl⟩
  · have hafter : ∀ c ∈ ((path.elim [] fun p => '/' :: p) ++ rest).head?, c ∈ ['/', '?', '#'] :=
      Text.head?_append (Text.head?_elim List.mem_cons_self path) fun c hc => List.mem_cons_of_mem _ (hrest c hc)
    obtain ⟨front, host, back, rfl, hpiece, hhost, hback⟩ := Authority.exists_hostPiece ha hafter
    refine ⟨'/' :: '/' :: front, host, back ++ path.elim [] fun p => '/' :: p, ?_, ?_, ?_, ?_⟩
    · simp
    · rw [List.append_assoc, List.append_assoc back, ← hpiece]
      rfl
    · intro a' ha'
      cases ha'
      exact hhost
    · intro host' he
      rw [read_eq_ok_iff]
      refine .inl ⟨_, path, a, p, ?_, hback host' he, hp, rfl⟩
      simp
  · refine ⟨[], [], t, rfl, ?_, nofun, ?_⟩
    · apply hostPiece_of_no_authority
      rw [authorityPiece_append hrest, authorityPiece_of_no_slashes hslash]
    · intro host' he
      obtain rfl : host' = [] := Text.asciiLower_eq_nil_iff.1 he
      exact hh

theorem Parts.exists_hostPiece {t : Text} {p : Parts} (h : read t = .ok p) :
    ∃ front host back, t = front ++ host ++ back ∧ hostPiece t = (front, host, back) ∧
      (∀ a, p.hier.authority? = some a → Host.read host = .ok a.host) ∧
        ∀ host', Text.asciiLower host' = Text.asciiLower host → read (front ++ host' ++ back) = .ok p := by
  obtain ⟨hier, query, fragment, rfl, hh, hq, hf⟩ := read_eq_ok_iff.1 h
  have htails : ∀ c ∈ ((query.elim [] fun q => '?' :: q) ++ fragment.elim [] fun f => '#' :: f).head?, c ∈ ['?', '#'] :=
    Text.head?_append (Text.head?_elim (by simp) query) (Text.head?_elim (by simp) fragment)
  obtain ⟨front, host, back, rfl, hpiece, hhost, hback⟩ := HierPart.exists_hostPiece hh htails
  refine ⟨front, host, back ++ ((query.elim [] fun q => '?' :: q) ++ fragment.elim [] fun f => '#' :: f), ?_, ?_, hhost, ?_⟩
  · simp
  · rw [← hpiece, List.append_assoc (front ++ host ++ back)]
  · intro host' he
    refine read_eq_ok_iff.2 ⟨front ++ host' ++ back, query, fragment, ?_, hback host' he, hq, hf⟩
    simp

/-! ### Texts that differ in case -/

/-- Texts that are the same in lower case are read as the same host, if as any, and as the same scheme.  A URI is read
whatever the case of the letters in its scheme and its host. -/
theorem parse_eq_of_asciiLower_eq :
    (∀ t₁ t₂ : Text, Text.asciiLower t₁ = Text.asciiLower t₂ → (parse Host t₁).toOption = (parse Host t₂).toOption) ∧
      (∀ t₁ t₂ : Text, Text.asciiLower t₁ = Text.asciiLower t₂ →
        (parse Scheme t₁).toOption = (parse Scheme t₂).toOption) ∧
        ∀ (t : Text) (u : Uri), parse Uri t = .ok u → ∃ name front host back,
          SchemePiece t name (front ++ host ++ back) ∧ hostPiece (front ++ host ++ back) = (front, host, back) ∧
            (∀ a, u.parts.hier.authority? = some a → parse Host host = .ok a.host) ∧
              ∀ name' host', Text.asciiLower name' = Text.asciiLower name → Text.asciiLower host' = Text.asciiLower host →
                parse Uri (name' ++ ':' :: (front ++ host' ++ back)) = .ok u := by
  refine ⟨?_, ?_, ?_⟩
  · intro t₁ t₂ he
    rw [Host.toOption_parse, Host.toOption_parse]
    exact eq_of_asciiLower_eq Host.ofText?_asciiLower he
  · intro t₁ t₂ he
    have hname := eq_of_asciiLower_eq (f := fun t => (SchemeName.ofText t).toOption) SchemeName.ofText_asciiLower he
    rw [Scheme.toOption_parse, Scheme.toOption_parse]
    exact congrArg _ hname
  · intro t u hu
    obtain ⟨name, rest, rfl, hn, hp⟩ := Uri.read_eq_ok_iff.1 (parse_eq_ok_iff.1 hu)
    obtain ⟨front, host, back, rfl, hpiece, hhost, hback⟩ := Parts.exists_hostPiece hp
    refine ⟨name, front, host, back, ?_, hpiece, ?_, ?_⟩
    · exact ⟨rfl, SchemeName.ne_nil_of_ofText hn, fun c hc hsep => SchemeName.not_mem_of_ofText hn hsep hc⟩
    · intro a ha
      exact parse_eq_ok_iff.2 (hhost a ha)
    · intro name' host' hname' hhost'
      have hn' := SchemeName.ofText_of_asciiLower_eq hname' hn
      exact parse_eq_ok_iff.2 ((Uri.read_append_eq_ok_iff hn').2 ⟨rfl, hback host' hhost'⟩)

/-- A future address, a scheme, and a URI with capitals and small letters the other way round: in the scheme, in the name,
also beyond ASCII, and in its escapes.  The version of a future address is held in upper case. -/
theorem parse_eq_of_asciiLower_eq_mixed :
    let t := "hTTp://U%4a@EX%c3%89%41.Com:080/P?Q".toList
    let t' := "HTtP://U%4a@eX%C3%89%41.cOM:080/P?Q".toList
    let u : Uri := ⟨⟨"http".toList⟩, ⟨.under ⟨some ⟨"UJ".toList⟩, .registeredName "exéa.com".toList, some (.ofNumber 80)⟩
      (some ⟨[.value "P".toList]⟩), some ⟨"Q".toList⟩, none⟩⟩
    (Text.asciiLower "[V1f.B]".toList = Text.asciiLower "[v1F.b]".toList ∧
        Text.asciiLower "S+".toList = Text.asciiLower "s+".toList ∧ parse Uri t = .ok u) ∧
      (parse Host "[v1F.b]".toList = .ok (.ipvFuture "1F".toList "b".toList) ∧
          (parse Host "[V1f.B]".toList).toOption = some (.ipvFuture "1F".toList "b".toList)) ∧
        (parse Scheme "s+".toList = .ok ⟨⟨"s+".toList⟩, none⟩ ∧
            (parse Scheme "S+".toList).toOption = some ⟨⟨"s+".toList⟩, none⟩) ∧
          parse Uri t' = .ok u := by
  intro t t' u
  obtain ⟨hhost, hscheme, huri⟩ := parse_eq_of_asciiLower_eq
  have hfuture : Text.asciiLower "[V1f.B]".toList = Text.asciiLower "[v1F.b]".toList := by decide
  have hplus : Text.asciiLower "S+".toList = Text.asciiLower "s+".toList := by decide
  have hu : parse Uri t = .ok u := by decide +kernel
  have hsmallHost : parse Host "[v1F.b]".toList = .ok (.ipvFuture "1F".toList "b".toList) := by decide
  have hsmallScheme : parse Scheme "s+".toList = .ok ⟨⟨"s+".toList⟩, none⟩ := by decide
  refine ⟨⟨hfuture, hplus, hu⟩, ⟨hsmallHost, ?_⟩, ⟨hsmallScheme, ?_⟩, ?_⟩
  · rw [hhost _ _ hfuture, hsmallHost]
    rfl
  · rw [hscheme _ _ hplus, hsmallScheme]
    rfl
  obtain ⟨name, front, host, back, hname, hpiece, -, hsame⟩ := huri t u hu
  have hcut : Uri.cutScheme t = some ("hTTp".toList, "//U%4a@EX%c3%89%41.Com:080/P?Q".toList) := by decide
  have hpieces : hostPiece "//U%4a@EX%c3%89%41.Com:080/P?Q".toList =
      ("//U%4a@".toList, "EX%c3%89%41.Com".toList, ":080/P?Q".toList) := by decide
  rw [(Uri.schemePiece_iff.1 hname).1, Option.some.injEq, Prod.mk.injEq] at hcut
  obtain ⟨rfl, hrest⟩ := hcut
  rw [hrest, hpieces, Prod.mk.injEq, Prod.mk.injEq] at hpiece
  obtain ⟨rfl, rfl, rfl⟩ := hpiece
  exact hsame "HTtP".toList "eX%C3%89%41.cOM".toList (by decide) (by decide)

end GenericUri
