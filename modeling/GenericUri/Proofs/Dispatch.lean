import GenericUri.Proofs.Acceptance

/-!
# Dispatch — which reader reads a reference

Three tests look for a scheme: the reader of references looks for a valid name before a colon, the reader of URIs cuts
the text at that colon, and the reader of relative references refuses a colon in the first segment
(`read_eq_ok_iff_firstSegment`).  No text passes both of the last two, so a reference is what exactly one of the readers
makes of its text.  Where neither makes anything of it, the reader that the first test chooses tells what is wrong
(`parse_reference_eq_iff`).
-/

namespace GenericUri

/-! ### The colon of a relative reference -/

namespace RelativeRef

variable {t : Text} {r : RelativeRef} {sep : Char}

/-- The first segment of a text without scheme and authority: what stands before any slash, `?` or `#`. -/
def firstSegment (t : Text) : Text := (Text.cutOff '/' (Text.cutOff '?' (Text.cutOff '#' t).1).1).1

theorem startsLikeScheme_cutOff (hsep : sep ∈ ['/', '?', '#']) (t : Text) :
    startsLikeScheme (Text.cutOff sep t).1 = startsLikeScheme t := by
  rw [← startsLikeScheme_append (Text.head?_elim hsep (Text.cutOff sep t).2), Text.append_of_cutOff]

theorem startsLikeScheme_iff_firstSegment : startsLikeScheme t = true ↔ ':' ∈ firstSegment t := by
  have hfirst : startsLikeScheme (firstSegment t) = startsLikeScheme t := by
    rw [firstSegment, startsLikeScheme_cutOff (by decide), startsLikeScheme_cutOff (by decide),
      startsLikeScheme_cutOff (by decide)]
  have hplain : ∀ c ∈ firstSegment t, (c != '/' && c != '?' && c != '#') = true := by
    intro c hc
    obtain ⟨hc, hslash⟩ := Text.mem_cutOff hc
    obtain ⟨hc, hquery⟩ := Text.mem_cutOff hc
    obtain ⟨-, hhash⟩ := Text.mem_cutOff hc
    simp [hslash, hquery, hhash]
  rw [← hfirst, startsLikeScheme, List.takeWhile_eq_self_iff.2 hplain, List.contains_iff_mem]

/-- Relative references are the parts with an authority or without a colon in the first segment. -/
theorem read_eq_ok_iff_firstSegment :
    read t = .ok r ↔ Parts.read t = .ok r.parts ∧ (r.parts.hier.authority? = none → ':' ∉ firstSegment t) := by
  rw [read_eq_ok_iff]
  refine and_congr_right fun hparts => ?_
  rw [← startsLikeScheme_iff_firstSegment, Bool.not_eq_true]
  refine ⟨fun h _ => h, fun h => ?_⟩
  obtain ⟨hier, query, fragment, rfl, hh, -, -⟩ := Parts.read_eq_ok_iff.1 hparts
  rcases HierPart.read_eq_ok_iff.1 hh with ⟨authority, path, a, p, rfl, -⟩ | ⟨-, p, -, hp⟩
  · -- a text with an authority starts with a slash
    exact startsLikeScheme_append_of_not_mem (l := []) List.not_mem_nil (forall_mem_some List.mem_cons_self)
  · exact h (by rw [hp]; rfl)

end RelativeRef

/-! ### The reader of references -/

variable {t : Text}

/-- The text starts with a scheme name and a colon, before any slash, `?` or `#`. -/
def StartsWithScheme (t : Text) : Prop :=
  ∃ name rest, t = name ++ ':' :: rest ∧ name ∈ Grammar.scheme ∧ ∀ c ∈ name, c ∉ ['/', '?', '#']

theorem hasScheme_iff_startsWithScheme : Reference.hasScheme t = true ↔ StartsWithScheme t := by
  rw [Reference.hasScheme_iff]
  constructor
  · rintro ⟨name, rest, n, rfl, hn⟩
    refine ⟨name, rest, rfl, exists_schemeName_iff.1 ⟨n, hn⟩, ?_⟩
    exact fun c hc hsep => SchemeName.not_mem_of_ofText hn (List.mem_cons_of_mem _ hsep) hc
  · rintro ⟨name, rest, rfl, hname, -⟩
    obtain ⟨n, hn⟩ := exists_schemeName_iff.2 hname
    exact ⟨name, rest, n, rfl, hn⟩

/-- No text is both: a URI starts with a scheme, and a relative reference does not. -/
theorem parse_relativeRef_ne_of_parse_uri {u : Uri} (hu : parse Uri t = .ok u) (r : RelativeRef) :
    parse RelativeRef t ≠ .ok r := by
  intro hr
  obtain ⟨name, rest, ht, hn, -⟩ := Uri.read_eq_ok_iff.1 (parse_eq_ok_iff.1 hu)
  have hs : Reference.hasScheme t = true := Reference.hasScheme_iff.2 ⟨name, rest, u.scheme, ht, hn⟩
  have hstart := (RelativeRef.read_eq_ok_iff.1 (parse_eq_ok_iff.1 hr)).2
  rw [Reference.hasScheme_of_startsLikeScheme_eq_false hstart] at hs
  cases hs

theorem parse_eq_ok_uri_iff {u : Uri} : parse Reference t = .ok (.uri u) ↔ parse Uri t = .ok u := by
  rw [parse_eq_ok_iff, parse_eq_ok_iff]
  refine Reference.read_eq_ok_iff.trans ⟨?_, fun h => .inl ⟨u, h, rfl⟩⟩
  rintro (⟨u', h, hu⟩ | ⟨r, -, hr⟩)
  · obtain rfl := Reference.uri.inj hu
    exact h
  · cases hr

theorem parse_eq_ok_relative_iff {r : RelativeRef} :
    parse Reference t = .ok (.relative r) ↔ parse RelativeRef t = .ok r := by
  rw [parse_eq_ok_iff, parse_eq_ok_iff]
  refine Reference.read_eq_ok_iff.trans ⟨?_, fun h => .inr ⟨r, h, rfl⟩⟩
  rintro (⟨u, -, hu⟩ | ⟨r', h, hr⟩)
  · cases hu
  · obtain rfl := Reference.relative.inj hr
    exact h

/-! ### What is wrong with a text -/

theorem exists_parse_error_iff :
    (∃ e, parse Reference t = .error e) ↔ (∃ e, parse Uri t = .error e) ∧ ∃ e, parse RelativeRef t = .error e := by
  simp only [exists_eq_error_iff]
  constructor
  · intro h
    exact ⟨fun u hu => h _ (parse_eq_ok_uri_iff.2 hu), fun r hr => h _ (parse_eq_ok_relative_iff.2 hr)⟩
  · rintro ⟨hu, hr⟩ (u | r) h
    · exact hu u (parse_eq_ok_uri_iff.1 h)
    · exact hr r (parse_eq_ok_relative_iff.1 h)

/-- A text with a scheme is left to the reader of URIs. -/
theorem parse_of_hasScheme (h : Reference.hasScheme t = true) :
    parse Reference t = (parse Uri t).map .uri := by
  have hread : (Component.read t : Except Fault Reference) = (Component.read t).map .uri := if_pos h
  unfold parse
  rw [hread]
  cases (Component.read t : Except Fault Uri) <;> rfl

/-- Any other text is left to the reader of relative references, and what it says covers URIs too. -/
theorem parse_of_not_hasScheme (h : Reference.hasScheme t ≠ true) :
    parse Reference t =
      ((parse RelativeRef t).map .relative).mapError fun e => ⟨e.input, Reference.widen e.fault⟩ := by
  have hread : (Component.read t : Except Fault Reference) =
      ((Component.read t).map .relative).mapError Reference.widen := if_neg h
  unfold parse
  rw [hread]
  cases (Component.read t : Except Fault RelativeRef) <;> rfl

theorem widen_eq (fault : Fault) :
    Reference.widen fault = if fault = .notRelativeRef then .notReference else fault := by
  cases fault <;> rfl

/-- A reference is read from a text if exactly one of a URI and a relative reference is, and what is wrong with any
other text is what the reader says that its start calls for. -/
theorem parse_reference_eq_iff (t : Text) :
    (¬ ∃ u r, parse Uri t = .ok u ∧ parse RelativeRef t = .ok r) ∧
      (∀ u, parse Reference t = .ok (.uri u) ↔ parse Uri t = .ok u) ∧
      (∀ r, parse Reference t = .ok (.relative r) ↔ parse RelativeRef t = .ok r) ∧
      ((∃ e, parse Reference t = .error e) ↔
        (∃ e, parse Uri t = .error e) ∧ ∃ e, parse RelativeRef t = .error e) ∧
      ∀ e, parse Reference t = .error e →
        (StartsWithScheme t → parse Uri t = .error e) ∧
          (¬ StartsWithScheme t → ∃ e', parse RelativeRef t = .error e' ∧
            e = ⟨e'.input, if e'.fault = .notRelativeRef then .notReference else e'.fault⟩) := by
  refine ⟨?_, fun _ => parse_eq_ok_uri_iff, fun _ => parse_eq_ok_relative_iff, exists_parse_error_iff, ?_⟩
  · rintro ⟨u, r, hu, hr⟩
    exact parse_relativeRef_ne_of_parse_uri hu r hr
  intro e he
  rw [← hasScheme_iff_startsWithScheme]
  constructor
  · intro hs
    rw [parse_of_hasScheme hs, map_eq_error_iff] at he
    exact he
  · intro hs
    rw [parse_of_not_hasScheme hs, mapError_eq_error_iff] at he
    obtain ⟨e', he', rfl⟩ := he
    exact ⟨e', map_eq_error_iff.1 he', by rw [widen_eq]⟩

end GenericUri
